/-
# `EvmTrans.SelectorLoad` — what `calldataCopyPass` changes for the runs of `main`.

The bytes that the shortened copy leaves out, and the words loaded from them, are followed along the
runs of the ORIGINAL function: a byte of memory that the two functions may leave different, a
register of which they agree in four bytes only. As long as no step uses more than these four, the
rewritten function uses the same values; `sameUses_of_spared` is that. A contract that stores the
word next to the selector is not spared.
-/
import Mathlib.Data.BitVec
import EvmTrans.CalldataCopyPass

namespace EvmTrans.Llvm.CalldataCopyPass

open Lib (InRange read write)

variable {O X : Type}

/-! ## §1 — what the rewriting may change. -/

/-- How far two runs agree in a register: fully, in the four low bytes, in the four high bytes. -/
inductive Agreement where
  | full
  | low
  | high
  deriving DecidableEq, Repr

def Agreement.Holds : Agreement → Word → Word → Prop
  | .full, v, v' => v' = v
  | .low, v, v' => v'.toNat % 2 ^ 32 = v.toNat % 2 ^ 32
  | .high, v, v' => v' >>> 224 = v >>> 224

/-- The registers and bytes in which the runs of the two functions may differ. -/
structure Difference where
  regs : Nat → Agreement
  bytes : Nat → Bool

def Difference.none : Difference := ⟨fun _ => .full, fun _ => false⟩

def Difference.define (d : Difference) (dst : Nat) (a : Agreement) : Difference :=
  { d with regs := Function.update d.regs dst a }

/-- These bytes are written by both. -/
def Difference.fill (d : Difference) (a n : Nat) : Difference :=
  { d with bytes := fun i => if a ≤ i ∧ i < a + n then false else d.bytes i }

/-- These bytes are written by one of the two. -/
def Difference.open (d : Difference) (a n : Nat) : Difference :=
  { d with bytes := fun i => if a ≤ i ∧ i < a + n then true else d.bytes i }

def Difference.operand (d : Difference) : Operand → Agreement
  | .const _ => .full
  | .reg r => d.regs r

/-- None of the `n` bytes at `a` may differ. -/
def Difference.Misses (d : Difference) (a n : Nat) : Prop := ∀ j < n, d.bytes (a + j) = false

instance (d : Difference) (a n : Nat) : Decidable (d.Misses a n) :=
  inferInstanceAs (Decidable (∀ j < n, _))

/-- A mask uses both operands; where the pass has put the shift of `reverse`, it must have the value
of that shift. -/
def Difference.SparesMask (d : Difference) (env : Nat → Word) (lhs rhs : Operand) :
    Option Nat → Prop
  | some reverse => d.regs reverse ≠ .low ∧ lhs.eval env &&& rhs.eval env = env reverse >>> 224
  | .none => d.operand lhs = .full ∧ d.operand rhs = .full

instance (d : Difference) (env : Nat → Word) (lhs rhs : Operand) (reverse : Option Nat) :
    Decidable (d.SparesMask env lhs rhs reverse) :=
  match reverse with
  | some _ => inferInstanceAs (Decidable (_ ∧ _))
  | .none => inferInstanceAs (Decidable (_ ∧ _))

/-- **The step uses no more of a register than the runs agree in, and no byte in which they may
differ.** A word that agrees in its high bytes may be shifted right by 224 to 255, or divided by a
multiple of 2^224 that is not zero; a larger shift and a division by zero end both runs. -/
def Difference.Spares (d : Difference) (H : Host O X) (site : Site) (c : Config X)
    (action : Action O) : Prop :=
  let s := c.state
  let full (o : Operand) : Prop := d.operand o = .full
  match action with
  | .callDataCopy dst off size => full dst ∧ full off ∧ (site.IsCopy c ∨ full size)
  | .load ptr => full ptr ∧ d.Misses (ptr.eval s.env).toNat 4
  | .bswap data => d.operand data ≠ .high
  | .lshr lhs rhs =>
    full rhs ∧ (full lhs ∨ d.operand lhs = .high ∧ 224 ≤ (rhs.eval s.env).toNat)
  | .udiv lhs rhs =>
    full rhs ∧ (full lhs ∨ d.operand lhs = .high ∧ 2 ^ 224 ∣ (rhs.eval s.env).toNat)
  | .and lhs rhs =>
    d.SparesMask s.env lhs rhs (site.shifted c)
  | .other op args =>
    (∀ o ∈ args, full o) ∧ ∀ r ∈ H.reads op (args.map (Operand.eval s.env)), d.Misses r.1 r.2

instance (d : Difference) (H : Host O X) (site : Site) (c : Config X) (action : Action O) :
    Decidable (d.Spares H site c action) :=
  match action with
  | .callDataCopy _ _ _ => inferInstanceAs (Decidable (_ ∧ _ ∧ (_ ∨ _)))
  | .load _ => inferInstanceAs (Decidable (_ ∧ _))
  | .bswap _ => inferInstanceAs (Decidable (_ ≠ _))
  | .lshr _ _ => inferInstanceAs (Decidable (_ ∧ (_ ∨ _ ∧ _)))
  | .udiv _ _ => inferInstanceAs (Decidable (_ ∧ (_ ∨ _ ∧ _)))
  | .and lhs rhs =>
    inferInstanceAs (Decidable (d.SparesMask c.state.env lhs rhs (site.shifted c)))
  | .other _ _ => inferInstanceAs (Decidable ((∀ o ∈ _, _) ∧ ∀ r ∈ _, _))

/-- The differences behind the step. -/
def Difference.after (d : Difference) (H : Host O X) (site : Site) (c : Config X) (inst : Inst O) :
    Difference :=
  let s := c.state
  match inst.action with
  | .callDataCopy dst _ size =>
    let a := (dst.eval s.env).toNat
    let n := (size.eval s.env).toNat
    if site.IsCopy c then (d.open a (max n 4)).fill a (min n 4) else d.fill a n
  | .load ptr =>
    d.define inst.dst (if d.Misses (ptr.eval s.env).toNat 32 then .full else .low)
  | .bswap data => d.define inst.dst (if d.operand data = .low then .high else .full)
  | .lshr _ _ => d.define inst.dst .full
  | .udiv _ _ => d.define inst.dst .full
  | .and _ _ => d.define inst.dst .full
  | .other op args =>
    let args := args.map (Operand.eval s.env)
    match H.run op args (H.bytesRead op args s.mem) s.host with
    | some r => r.2.2.foldl (fun d w => d.fill w.1 w.2.length) (d.define inst.dst .full)
    | .none => d

/-- The step from here spares the differences. -/
def SparesStep (H : Host O X) (f : Func O) (site : Site) (p : Config X × Difference) : Prop :=
  ∀ b ∈ f[p.1.block]?,
    (∀ inst ∈ b.insts[p.1.pc]?, p.2.Spares H site p.1 inst.action) ∧
    (b.insts[p.1.pc]? = none → ∀ o ∈ b.term.operand, p.2.operand o = .full)

instance (H : Host O X) (f : Func O) (site : Site) (p : Config X × Difference) :
    Decidable (SparesStep H f site p) :=
  inferInstanceAs (Decidable (∀ b ∈ f[p.1.block]?, _ ∧ (_ → _)))

/-- A step of the original function, with what the rewritten one may have different. -/
def watchStep (H : Host O X) (f : Func O) (site : Site) (p : Config X × Difference) :
    Option (Config X × Difference) :=
  (step H f p.1).map fun c =>
    (c,
      match f[p.1.block]?.bind (·.insts[p.1.pc]?) with
      | some inst => p.2.after H site p.1 inst
      | none => p.2)

def watch (H : Host O X) (f : Func O) (site : Site) (s : State X) : Nat →
    Option (Config X × Difference)
  | 0 => some (⟨0, 0, s⟩, .none)
  | n + 1 => (watch H f site s n).bind (watchStep H f site)

/-- Every step of the run spares the differences. -/
def RunSpares (H : Host O X) (f : Func O) (site : Site) (s : State X) : Prop :=
  ∀ n p, watch H f site s n = some p → SparesStep H f site p

/-! ## §2 — words that agree in four bytes. -/

theorem Agreement.holds_of_eq (a : Agreement) (v : Word) : a.Holds v v := by
  cases a <;> rfl

theorem Agreement.Holds.high_of_ne_low {a : Agreement} {v v' : Word} (h : a.Holds v v')
    (ha : a ≠ .low) : v' >>> 224 = v >>> 224 := by
  cases a with
  | full =>
    have hv : v' = v := h
    rw [hv]
  | low => exact absurd rfl ha
  | high => exact h

/-- A load whose first four bytes agree. -/
theorem readWord_low {m m' : Nat → Byte} {a : Nat} (h : ∀ j < 4, m' (a + j) = m (a + j)) :
    Agreement.low.Holds (readWord m a) (readWord m' a) := by
  have hlow : ∀ m : Nat → Byte, (readWord m a).toNat % 2 ^ 32 = Lib.ofLE (read m a 4) % 2 ^ 32 := by
    intro m
    have hsplit : read m a 32 = read m a 4 ++ read m (a + 4) 28 := Lib.read_add m a 4 28
    rw [readWord, BitVec.toNat_ofNat, hsplit, Lib.ofLE_append, Lib.length_read,
      Nat.mod_mod_of_dvd _ (by decide : 2 ^ 32 ∣ 2 ^ 256), show (256 : Nat) ^ 4 = 2 ^ 32 by decide,
      Nat.add_mul_mod_self_left]
  have hread : read m' a 4 = read m a 4 := by
    apply Lib.read_congr
    rintro i ⟨hle, hlt⟩
    obtain ⟨j, rfl⟩ := Nat.exists_eq_add_of_le hle
    exact h j (by omega)
  show (readWord m' a).toNat % 2 ^ 32 = (readWord m a).toNat % 2 ^ 32
  rw [hlow, hlow, hread]

/-- Swapping the bytes moves the four low ones to the top. -/
theorem bswap256_high {v v' : Word} (h : Agreement.low.Holds v v') :
    Agreement.high.Holds (bswap256 v) (bswap256 v') := by
  have hbit : ∀ j < 32, v'.getLsbD j = v.getLsbD j := by
    intro j hj
    have hlow : v'.toNat % 2 ^ 32 = v.toNat % 2 ^ 32 := h
    have htest := congrArg (fun n => Nat.testBit n j) hlow
    simp only [Nat.testBit_mod_two_pow, hj, decide_true, Bool.true_and] at htest
    exact htest
  show bswap256 v' >>> 224 = bswap256 v >>> 224
  apply BitVec.eq_of_getLsbD_eq
  intro j _
  rw [BitVec.getLsbD_ushiftRight, BitVec.getLsbD_ushiftRight]
  by_cases hj : 224 + j < 256
  · rw [getLsbD_bswap256 _ hj, getLsbD_bswap256 _ hj, hbit _ (by omega)]
  · rw [BitVec.getLsbD_of_ge _ _ (by omega), BitVec.getLsbD_of_ge _ _ (by omega)]

theorem Agreement.Holds.bswap {a : Agreement} {v v' : Word} (h : a.Holds v v') (ha : a ≠ .high) :
    (if a = .low then Agreement.high else .full).Holds (bswap256 v) (bswap256 v') := by
  cases a with
  | full =>
    have hv : v' = v := h
    rw [hv]
    exact Agreement.holds_of_eq _ _
  | low => exact bswap256_high h
  | high => exact absurd rfl ha

/-- A shift by 224 or more forgets the others. -/
theorem shiftRight_of_high {v v' : Word} (h : Agreement.high.Holds v v') {n : Nat} (hn : 224 ≤ n) :
    v' >>> n = v >>> n := by
  obtain ⟨k, rfl⟩ := Nat.exists_eq_add_of_le hn
  have h : v' >>> 224 = v >>> 224 := h
  rw [BitVec.shiftRight_add, BitVec.shiftRight_add, h]

/-- So does a division by a multiple of 2^224. -/
theorem udiv_of_high {v v' d : Word} (h : Agreement.high.Holds v v') (hd : 2 ^ 224 ∣ d.toNat) :
    v' / d = v / d := by
  obtain ⟨k, hk⟩ := hd
  have hdiv : v'.toNat / 2 ^ 224 = v.toNat / 2 ^ 224 := by
    have h := congrArg BitVec.toNat (show v' >>> 224 = v >>> 224 from h)
    rwa [BitVec.toNat_ushiftRight, BitVec.toNat_ushiftRight, Nat.shiftRight_eq_div_pow,
      Nat.shiftRight_eq_div_pow] at h
  apply BitVec.eq_of_toNat_eq
  rw [BitVec.toNat_udiv, BitVec.toNat_udiv, hk, ← Nat.div_div_eq_div_mul,
    ← Nat.div_div_eq_div_mul, hdiv]

/-! ## §3 — one step of both functions. -/

/-- The two states differ in nothing else. -/
structure Related (d : Difference) (s s' : State X) : Prop where
  host : s'.host = s.host
  regs : ∀ r, (d.regs r).Holds (s.env r) (s'.env r)
  mem : ∀ a, d.bytes a = false → s'.mem a = s.mem a

theorem Related.refl (s : State X) : Related .none s s where
  host := rfl
  regs _ := rfl
  mem _ _ := rfl

variable {d : Difference} {s s' : State X}

theorem Related.operand (h : Related d s s') (o : Operand) :
    (d.operand o).Holds (o.eval s.env) (o.eval s'.env) := by
  cases o with
  | const c => rfl
  | reg r => exact h.regs r

theorem Related.eval (h : Related d s s') {o : Operand} (ho : d.operand o = .full) :
    o.eval s'.env = o.eval s.env := by
  have hop := h.operand o
  rw [ho] at hop
  exact hop

/-- An operation that forgets the low bytes has the same result for an operand that agrees in the
high ones. -/
theorem Related.eval_of_high (h : Related d s s') {o : Operand} {P : Prop} (op : Word → Word)
    (hop : ∀ {v v' : Word}, Agreement.high.Holds v v' → P → op v' = op v)
    (ho : d.operand o = .full ∨ d.operand o = .high ∧ P) :
    op (o.eval s'.env) = op (o.eval s.env) := by
  rcases ho with ho | ⟨ho, hp⟩
  · rw [h.eval ho]
  · have hhigh := h.operand o
    rw [ho] at hhigh
    exact hop hhigh hp

theorem Related.evalAll (h : Related d s s') {os : List Operand}
    (hos : ∀ o ∈ os, d.operand o = .full) :
    os.map (Operand.eval s'.env) = os.map (Operand.eval s.env) :=
  List.map_congr_left fun o ho => h.eval (hos o ho)

theorem Related.define (h : Related d s s') (dst : Nat) {a : Agreement} {v v' : Word}
    (hv : a.Holds v v') : Related (d.define dst a) (s.define dst v) (s'.define dst v') where
  host := h.host
  regs r := by
    show (Function.update d.regs dst a r).Holds (Function.update s.env dst v r)
        (Function.update s'.env dst v' r)
    by_cases hr : r = dst
    · subst hr
      rw [Function.update_self, Function.update_self, Function.update_self]
      exact hv
    · rw [Function.update_of_ne hr, Function.update_of_ne hr, Function.update_of_ne hr]
      exact h.regs r
  mem := h.mem

/-- Both write the same bytes. -/
theorem Related.write_same (h : Related d s s') (a : Nat) (bs : List Byte) :
    Related (d.fill a bs.length) { s with mem := write s.mem a bs }
      { s' with mem := write s'.mem a bs } where
  host := h.host
  regs := h.regs
  mem i hi := by
    show write s'.mem a bs i = write s.mem a bs i
    by_cases hr : InRange a bs.length i
    · obtain ⟨j, rfl⟩ := Nat.exists_eq_add_of_le hr.1
      have hj : j < bs.length := by
        have := hr.2
        omega
      rw [Lib.write_add hj, Lib.write_add hj]
    · have hbyte : (if a ≤ i ∧ i < a + bs.length then false else d.bytes i) = false := hi
      split at hbyte
      · exact absurd ‹_› hr
      · exact Lib.write_congr (h.mem i hbyte)

theorem Related.writeAll_same (ws : List (Nat × List Byte)) : ∀ {d : Difference} {s s' : State X},
    Related d s s' → Related (ws.foldl (fun d w => d.fill w.1 w.2.length) d)
      { s with mem := writeAll s.mem ws } { s' with mem := writeAll s'.mem ws } := by
  induction ws with
  | nil => exact fun h => h
  | cons w ws ih => exact fun h => ih (h.write_same w.1 w.2)

/-- One writes `n` bytes of the call data, the other `n'`. -/
theorem Related.write_prefix (h : Related d s s') (a : Nat) (m : Nat → Byte) (off n n' : Nat) :
    Related ((d.open a (max n n')).fill a (min n n')) { s with mem := write s.mem a (read m off n) }
      { s' with mem := write s'.mem a (read m off n') } where
  host := h.host
  regs := h.regs
  mem i hi := by
    have hbyte : (if a ≤ i ∧ i < a + min n n' then false else
      if a ≤ i ∧ i < a + max n n' then true else d.bytes i) = false := hi
    show write s'.mem a (read m off n') i = write s.mem a (read m off n) i
    split at hbyte
    · -- both have written the same byte of the call data
      rename_i hin
      obtain ⟨j, rfl⟩ := Nat.exists_eq_add_of_le hin.1
      have hn : j < (read m off n).length := by
        rw [Lib.length_read]
        omega
      have hn' : j < (read m off n').length := by
        rw [Lib.length_read]
        omega
      rw [Lib.write_add hn, Lib.write_add hn', Lib.getElem_read, Lib.getElem_read]
    · rename_i hin
      split at hbyte
      · cases hbyte
      · -- neither has written here: of the bytes that only one has written nothing is promised
        rename_i hout
        rw [Lib.write_of_not_inRange, Lib.write_of_not_inRange]
        · exact h.mem i hbyte
        · rw [Lib.length_read]
          rintro ⟨h1, h2⟩
          exact hout ⟨h1, by omega⟩
        · rw [Lib.length_read]
          rintro ⟨h1, h2⟩
          exact hout ⟨h1, by omega⟩

theorem Related.read_same (h : Related d s s') {a n : Nat} (hmiss : d.Misses a n) :
    read s'.mem a n = read s.mem a n := by
  apply Lib.read_congr
  rintro i ⟨hle, hlt⟩
  obtain ⟨j, rfl⟩ := Nat.exists_eq_add_of_le hle
  exact h.mem _ (hmiss j (by omega))

theorem Related.bytesRead (h : Related d s s') {H : Host O X} {op : O} {args : List Word}
    (hmiss : ∀ r ∈ H.reads op args, d.Misses r.1 r.2) :
    H.bytesRead op args s'.mem = H.bytesRead op args s.mem :=
  List.map_congr_left fun r hr => h.read_same (hmiss r hr)

/-! ## §4 — the rewritten instruction. -/

variable {H : Host O X} {site : Site} {c : Config X} {inst : Inst O}

theorem exec_callDataCopy {i : Inst O} {dst off size : Operand}
    (h : i.action = .callDataCopy dst off size) (s : State X) : exec H i s = some { s with
      mem := write s.mem (dst.eval s.env).toNat
        (read H.callData (off.eval s.env).toNat (size.eval s.env).toNat) } := by
  rw [exec, h]

theorem exec_lshr {i : Inst O} {lhs rhs : Operand} (h : i.action = .lshr lhs rhs) {s : State X}
    (hlt : (rhs.eval s.env).toNat < 256) :
    exec H i s = some (s.define i.dst (lhs.eval s.env >>> (rhs.eval s.env).toNat)) := by
  rw [exec, h]
  exact if_pos hlt

/-- The copy, cut or not. -/
theorem exec_copy_related (hrel : Related d c.state s') (hm : site.Matches c inst)
    {dst off size : Operand} (ha : inst.action = .callDataCopy dst off size)
    (hs : d.Spares H site c inst.action) :
    Option.Rel (Related (d.after H site c inst)) (exec H inst c.state)
      (exec H (site.inst c inst) s') := by
  unfold Difference.Spares at hs
  rw [ha] at hs
  obtain ⟨hdst, hoff, hsize⟩ := hs
  by_cases hcopy : site.IsCopy c
  · -- the size may differ, as it is replaced by 4
    have hset : (site.inst c inst).action = .callDataCopy dst off (.const 4) := by
      rw [Site.inst, if_pos hcopy, setSize]
      simp only [ha]
    have hafter : d.after H site c inst = (d.open (dst.eval c.state.env).toNat
        (max (size.eval c.state.env).toNat 4)).fill (dst.eval c.state.env).toNat
          (min (size.eval c.state.env).toNat 4) := by
      unfold Difference.after
      simp only [ha, if_pos hcopy]
    rw [exec_callDataCopy ha, exec_callDataCopy hset, hafter, hrel.eval hdst, hrel.eval hoff]
    exact .some (hrel.write_prefix _ _ _ _ 4)
  · have hsize := hsize.resolve_left hcopy
    have hsame : site.inst c inst = inst := by
      rw [Site.inst, if_neg hcopy]
      cases hsh : site.shifted c with
      | none => rfl
      | some reverse =>
        obtain ⟨lhs, rhs, hand⟩ := hm.mask reverse hsh
        rw [ha] at hand
        cases hand
    have hafter : d.after H site c inst =
        d.fill (dst.eval c.state.env).toNat (size.eval c.state.env).toNat := by
      unfold Difference.after
      simp only [ha, if_neg hcopy]
    rw [hsame, exec_callDataCopy ha, exec_callDataCopy ha, hafter, hrel.eval hdst, hrel.eval hoff,
      hrel.eval hsize]
    have hw := hrel.write_same (dst.eval c.state.env).toNat
      (read H.callData (off.eval c.state.env).toNat (size.eval c.state.env).toNat)
    rw [Lib.length_read] at hw
    exact .some hw

/-- The mask, or the shift in its place. -/
theorem exec_and_related (hrel : Related d c.state s') (hm : site.Matches c inst)
    {lhs rhs : Operand} (ha : inst.action = .and lhs rhs) (hs : d.Spares H site c inst.action) :
    Option.Rel (Related (d.after H site c inst)) (exec H inst c.state)
      (exec H (site.inst c inst) s') := by
  have hnot : ¬ site.IsCopy c := by
    intro h
    obtain ⟨dst, off, size, hcopy⟩ := hm.copy h
    rw [ha] at hcopy
    cases hcopy
  have hafter : d.after H site c inst = d.define inst.dst .full := by
    unfold Difference.after
    simp only [ha]
  have hexec : ∀ s : State X, exec H inst s =
      some (s.define inst.dst (lhs.eval s.env &&& rhs.eval s.env)) := by
    intro s
    unfold exec
    simp only [ha]
  unfold Difference.Spares at hs
  simp only [ha] at hs
  rw [hafter, hexec, Site.inst, if_neg hnot]
  cases hsh : site.shifted c with
  | none =>
    rw [hsh] at hs
    obtain ⟨hl, hr⟩ := hs
    rw [hexec, hrel.eval hl, hrel.eval hr]
    exact .some (hrel.define _ rfl)
  | some reverse =>
    rw [hsh] at hs
    obtain ⟨hlow, hvalue⟩ := hs
    -- the shift of a word that agrees in its high bytes
    have hhigh : s'.env reverse >>> 224 = c.state.env reverse >>> 224 :=
      (hrel.regs reverse).high_of_ne_low hlow
    have hshift : (replaceByShift reverse inst).action = .lshr (.reg reverse) (.const 224) := rfl
    have h224 : (Operand.eval s'.env (.const 224)).toNat < 256 := by
      show (224 : Word).toNat < 256
      decide
    dsimp only
    rw [exec_lshr hshift h224, hvalue]
    exact .some (hrel.define _ hhigh)

/-- **One instruction** keeps the two states related, and stops both or neither. -/
theorem exec_related (hrel : Related d c.state s') (hm : site.Matches c inst)
    (hs : d.Spares H site c inst.action) :
    Option.Rel (Related (d.after H site c inst)) (exec H inst c.state)
      (exec H (site.inst c inst) s') := by
  cases ha : inst.action with
  | callDataCopy dst off size => exact exec_copy_related hrel hm ha hs
  | and lhs rhs => exact exec_and_related hrel hm ha hs
  | load ptr =>
    rw [Site.inst_of_other hm (by simp [ha]) (by simp [ha])]
    unfold Difference.Spares at hs
    unfold Difference.after exec
    simp only [ha] at hs ⊢
    obtain ⟨hptr, hmiss⟩ := hs
    rw [hrel.eval hptr]
    refine .some (hrel.define _ ?_)
    -- a word of which some bytes may differ agrees in its first four, which are spared
    split
    · rename_i hall
      show readWord _ _ = readWord _ _
      rw [readWord, readWord, hrel.read_same hall]
    · exact readWord_low fun j hj => hrel.mem _ (hmiss j hj)
  | bswap data =>
    rw [Site.inst_of_other hm (by simp [ha]) (by simp [ha])]
    unfold Difference.Spares at hs
    unfold Difference.after exec
    simp only [ha] at hs ⊢
    exact .some (hrel.define _ ((hrel.operand data).bswap hs))
  | lshr lhs rhs =>
    rw [Site.inst_of_other hm (by simp [ha]) (by simp [ha])]
    unfold Difference.Spares at hs
    unfold Difference.after exec
    simp only [ha] at hs ⊢
    obtain ⟨hr, hl⟩ := hs
    rw [hrel.eval hr]
    have hval :=
      hrel.eval_of_high (· >>> (rhs.eval c.state.env).toNat)
        (fun h hn => shiftRight_of_high h hn) hl
    split
    · exact .some (hrel.define _ hval)
    · exact .none
  | udiv lhs rhs =>
    rw [Site.inst_of_other hm (by simp [ha]) (by simp [ha])]
    unfold Difference.Spares at hs
    unfold Difference.after exec
    simp only [ha] at hs ⊢
    obtain ⟨hr, hl⟩ := hs
    rw [hrel.eval hr]
    have hval := hrel.eval_of_high (· / rhs.eval c.state.env) (fun h hd => udiv_of_high h hd) hl
    split
    · exact .none
    · exact .some (hrel.define _ hval)
  | other op args =>
    rw [Site.inst_of_other hm (by simp [ha]) (by simp [ha])]
    unfold Difference.Spares at hs
    unfold Difference.after exec
    simp only [ha] at hs ⊢
    obtain ⟨hargs, hreads⟩ := hs
    -- it sees the same operands, bytes and host
    rw [hrel.evalAll hargs, hrel.bytesRead hreads, hrel.host]
    cases H.run op (args.map (Operand.eval c.state.env))
        (H.bytesRead op (args.map (Operand.eval c.state.env)) c.state.mem) c.state.host with
    | none => exact .none
    | some r =>
      have hdef := hrel.define inst.dst (show Agreement.full.Holds r.1 r.1 from rfl)
      have hw := Related.writeAll_same r.2.2 hdef
      exact .some ⟨rfl, hw.regs, hw.mem⟩

/-! ## §5 — the two runs. -/

/-- The two runs stand at one point, in related states. -/
structure Abreast (p : Config X × Difference) (c' : Config X) : Prop where
  block : c'.block = p.1.block
  pc : c'.pc = p.1.pc
  state : Related p.2 p.1.state c'.state

variable {f : Func O} {p : Config X × Difference} {c' : Config X}

/-- A spared terminator branches alike. -/
theorem Related.target (h : Related d s s') {t : Terminator}
    (ht : ∀ o ∈ t.operand, d.operand o = .full) :
    t.target s'.env = t.target s.env ∧
      t.operand.map (Operand.eval s'.env) = t.operand.map (Operand.eval s.env) := by
  cases t with
  | br block => exact ⟨rfl, rfl⟩
  | condBr cond ifTrue ifFalse =>
    have hcond := h.eval (ht cond rfl)
    exact ⟨by simp [Terminator.target, hcond], by simp [Terminator.operand, hcond]⟩
  | switch cond cases default =>
    have hcond := h.eval (ht cond rfl)
    exact ⟨by simp [Terminator.target, hcond], by simp [Terminator.operand, hcond]⟩
  | ret => exact ⟨rfl, rfl⟩

/-- **One step of both functions.** -/
theorem step_abreast (hsite : findSite f (positions f) = some (some site)) (h : Abreast p c')
    (hs : SparesStep H f site p) :
    Option.Rel Abreast (watchStep H f site p) (step H (site.rewrite f) c') := by
  obtain ⟨c, d⟩ := p
  obtain ⟨block, pc, s'⟩ := c'
  obtain ⟨rfl, rfl, hrel⟩ := h
  unfold SparesStep at hs
  unfold watchStep step
  dsimp only at hs hrel ⊢
  cases hb : f[c.block]? with
  | none =>
    have hnone : (site.rewrite f)[c.block]? = none := by
      rw [Site.rewrite, List.getElem?_modify, hb]
      rfl
    rw [hnone]
    exact .none
  | some b =>
    obtain ⟨b', hb', hterm, hinsts⟩ := site.rewrite_block hb
    obtain ⟨hinst, hterm'⟩ := hs b hb
    rw [hb']
    dsimp only
    rw [Option.bind_some, hinsts, hterm]
    cases hi : b.insts[c.pc]? with
    | none =>
      dsimp only [Option.map_none]
      rw [(hrel.target (hterm' hi)).1]
      cases b.term.target c.state.env with
      | none => exact .none
      | some k => exact .some ⟨rfl, rfl, hrel⟩
    | some inst =>
      dsimp only [Option.map_some]
      have hexec := exec_related hrel (Site.matches_of_findSite hsite hb hi) (hinst inst hi)
      -- both executions stop, or both go on in related states
      revert hexec
      generalize exec H inst c.state = r, exec H (site.inst c inst) s' = r'
      rintro (⟨hst⟩ | _)
      · exact .some ⟨rfl, rfl, hst⟩
      · exact .none

/-- **The two runs**, by induction on the steps. -/
theorem run_abreast (hsite : findSite f (positions f) = some (some site))
    (hs : RunSpares H f site s) (n : Nat) :
    Option.Rel Abreast (watch H f site s n) (run H (site.rewrite f) s n) := by
  induction n with
  | zero => exact .some ⟨rfl, rfl, .refl s⟩
  | succ n ih =>
    have hspares := hs n
    rw [watch, run]
    revert hspares ih
    generalize watch H f site s n = w, run H (site.rewrite f) s n = r
    rintro (⟨h⟩ | _) hspares
    · exact step_abreast hsite h (hspares _ rfl)
    · exact .none

/-- Runs that stand abreast use the same values. -/
theorem uses_abreast (hsite : findSite f (positions f) = some (some site)) (h : Abreast p c')
    (hs : SparesStep H f site p) : uses H (site.rewrite f) c' = uses H f p.1 := by
  obtain ⟨c, d⟩ := p
  obtain ⟨block, pc, s'⟩ := c'
  obtain ⟨rfl, rfl, hrel⟩ := h
  unfold SparesStep at hs
  unfold uses
  dsimp only at hs hrel ⊢
  cases hb : f[c.block]? with
  | none => rw [Site.rewrite, List.getElem?_modify, hb]; rfl
  | some b =>
    obtain ⟨b', hb', hterm, hinsts⟩ := site.rewrite_block hb
    obtain ⟨hinst, hterm'⟩ := hs b hb
    rw [hb']
    dsimp only
    rw [hinsts, hterm]
    cases hi : b.insts[c.pc]? with
    | none =>
      dsimp only [Option.map_none]
      rw [(hrel.target (hterm' hi)).2]
    | some inst =>
      have hs := hinst inst hi
      have hm := Site.matches_of_findSite hsite hb hi
      dsimp only [Option.map_some]
      by_cases hother : ∃ op args, inst.action = .other op args
      · obtain ⟨op, args, ha⟩ := hother
        rw [Site.inst_of_other hm (by simp [ha]) (by simp [ha])]
        unfold Difference.Spares at hs
        simp only [ha] at hs ⊢
        rw [hrel.evalAll hs.1, hrel.bytesRead hs.2]
      · -- copies, loads, swaps, shifts and masks show nothing, rewritten or not
        split
        · rename_i op args ha
          exact absurd ⟨op, args, Site.inst_other ha⟩ hother
        · split
          · rename_i op args ha
            exact absurd ⟨op, args, ha⟩ hother
          · rfl

theorem watch_fst (n : Nat) : (watch H f site s n).map Prod.fst = run H f s n := by
  induction n with
  | zero => rfl
  | succ n ih =>
    rw [watch, run, ← ih, Option.map_bind, Option.bind_map]
    congr 1
    funext p
    show Option.map Prod.fst (watchStep H f site p) = step H f p.1
    rw [watchStep, Option.map_map]
    exact Option.map_id'

/-- **Where every step of a run spares what the pass may change, the rewritten function uses the
same values**: the operands and the memory of every other instruction, and the values it branches
on; and it runs as long. -/
theorem sameUses_of_spared {O X : Type} (H : Host O X) (f f' : Func O)
    (h : runOnFunction f = some f') (s : State X)
    (hs : ∀ site, findSite f (positions f) = some (some site) → RunSpares H f site s) (n : Nat) :
    (run H f' s n).isSome = (run H f s n).isSome ∧
      (run H f' s n).bind (uses H f') = (run H f s n).bind (uses H f) := by
  rcases runOnFunction_eq h with ⟨-, rfl⟩ | ⟨site, hsite, rfl⟩
  · exact ⟨rfl, rfl⟩
  · have hspares := hs site hsite n
    have habreast := run_abreast hsite (hs site hsite) n
    have hfst : (watch H f site s n).map Prod.fst = run H f s n := watch_fst n
    revert habreast hspares hfst
    generalize watch H f site s n = w, run H (site.rewrite f) s n = r', run H f s n = r
    rintro hspares (⟨habreast⟩ | _) rfl
    · exact ⟨rfl, uses_abreast hsite habreast (hspares _ rfl)⟩
    · exact ⟨rfl, rfl⟩

/-! ## §6 — the divisor. -/

/-- **Which divisor.** The mask of a quotient is the shift, for every word, exactly when the divisor
is 2^224. -/
theorem mask_udiv_eq_shift_iff (divisor : Word) :
    (∀ reverse : Word, 0xffffffff#256 &&& reverse / divisor = reverse >>> 224) ↔
    divisor = 2 ^ 224 := by
  have hmask : ∀ reverse : Word, (0xffffffff#256 &&& reverse / divisor).toNat =
      reverse.toNat / divisor.toNat % 2 ^ 32 := by
    intro reverse
    rw [BitVec.toNat_and, BitVec.toNat_udiv, Nat.and_comm,
      show (0xffffffff#256).toNat = 2 ^ 32 - 1 from rfl, Nat.and_two_pow_sub_one_eq_mod]
  have hshift : ∀ reverse : Word, (reverse >>> 224).toNat = reverse.toNat / 2 ^ 224 := by
    intro reverse
    rw [BitVec.toNat_ushiftRight, Nat.shiftRight_eq_div_pow]
  have hpow : (2 ^ 224 : Word).toNat = 2 ^ 224 := by decide +kernel
  constructor
  · intro h
    have hself := congrArg BitVec.toNat (h divisor)
    have hone := congrArg BitVec.toNat (h (2 ^ 224))
    rw [hmask, hshift] at hself hone
    rw [hpow, Nat.div_self (by decide)] at hone
    -- 2^224 divided by it is not 0, so it is not larger; it divided by itself is 1, so it is not
    -- smaller
    apply BitVec.eq_of_toNat_eq
    rw [hpow]
    have hpos : 0 < divisor.toNat := by
      rw [Nat.pos_iff_ne_zero]
      intro hzero
      rw [hzero, Nat.div_zero] at hone
      cases hone
    rw [Nat.div_self hpos] at hself
    have hge : 2 ^ 224 ≤ divisor.toNat := by
      by_contra hlt
      rw [Nat.div_eq_of_lt (Nat.not_le.mp hlt)] at hself
      cases hself
    have hle : divisor.toNat ≤ 2 ^ 224 := by
      by_contra hgt
      rw [Nat.div_eq_of_lt (Nat.not_le.mp hgt)] at hone
      cases hone
    exact Nat.le_antisymm hle hge
  · rintro rfl reverse
    apply BitVec.eq_of_toNat_eq
    rw [hmask, hshift, hpow]
    apply Nat.mod_eq_of_lt
    have := reverse.isLt
    omega

/-- So the division that `SHR` replaces in newer contracts is spared. -/
theorem sparesMask_of_udiv {d : Difference} {env : Nat → Word} {lhs rhs : Operand} {reverse : Nat}
    (hreg : d.regs reverse ≠ .low) (hlhs : lhs.eval env = 0xffffffff#256)
    (hrhs : rhs.eval env = env reverse / 2 ^ 224) : d.SparesMask env lhs rhs (some reverse) := by
  refine ⟨hreg, ?_⟩
  rw [hlhs, hrhs]
  exact (mask_udiv_eq_shift_iff (2 ^ 224)).mpr rfl _

/-! ## §7 — two contracts. -/

/-- Call data 01, 02, 03, …; an `alloca` gives address 4096. -/
def countingHost : Host String Unit where
  callData i := BitVec.ofNat 8 (i + 1)
  reads _ _ := []
  run op _ _ _ := some (if op = "alloca" then 4096 else 0, (), [])

def emptyState : State Unit := ⟨fun _ => 0, fun _ => 0, ()⟩

/-- `CALLDATALOAD` of offset 0 and `SHR` by 224. -/
def loadSelector : List (Inst String) :=
  [⟨1, "", .other "alloca" []⟩, ⟨0, "", .callDataCopy (.reg 1) (.const 0) (.const 32)⟩,
    ⟨2, "", .load (.reg 1)⟩, ⟨3, ".reverse", .bswap (.reg 2)⟩,
    ⟨4, "ShrAssign", .lshr (.reg 3) (.const 224)⟩]

/-- `sstore(0, shr(224, calldataload(0)))`. -/
def storesSelector : Func String :=
  [⟨loadSelector ++ [⟨0, "", .other "storageStore" [.const 0, .reg 4]⟩], .ret⟩]

theorem storesSelector_site :
    findSite storesSelector (positions storesSelector) = some (some ⟨0, 1, .shift⟩) := by
  decide +kernel

/-- All of its run is spared. -/
theorem storesSelector_spared :
    RunSpares countingHost storesSelector ⟨0, 1, .shift⟩ emptyState := by
  have hend : ∀ k, watch countingHost storesSelector ⟨0, 1, .shift⟩ emptyState (7 + k) = none := by
    intro k
    induction k with
    | zero => exact Option.isNone_iff_eq_none.mp (by decide +kernel)
    | succ k ih =>
      rw [← Nat.add_assoc, watch, ih]
      rfl
  have hsteps : ∀ n, n < 7 → (watch countingHost storesSelector ⟨0, 1, .shift⟩ emptyState n).all
      (fun p => decide (SparesStep countingHost storesSelector ⟨0, 1, .shift⟩ p)) = true := by
    decide +kernel
  intro n p hn
  rcases Nat.lt_or_ge n 7 with hlt | hge
  · have hp := hsteps n hlt
    rw [hn] at hp
    exact of_decide_eq_true hp
  · obtain ⟨k, rfl⟩ := Nat.exists_eq_add_of_le hge
    rw [hend] at hn
    cases hn

/-- So it stores the same selector. -/
theorem sameUses_of_spared_storesSelector :
    (run countingHost ((⟨0, 1, .shift⟩ : Site).rewrite storesSelector) emptyState 5).bind
        (uses countingHost ((⟨0, 1, .shift⟩ : Site).rewrite storesSelector)) =
      some (.op "storageStore" [0, 0x01020304] []) := by
  have hrun :
      runOnFunction storesSelector = some ((⟨0, 1, .shift⟩ : Site).rewrite storesSelector) := by
    rw [runOnFunction, storesSelector_site]
    rfl
  refine (sameUses_of_spared countingHost _ _ hrun emptyState (fun site hsite => ?_) 5).2.trans ?_
  · rw [storesSelector_site] at hsite
    cases hsite
    exact storesSelector_spared
  · decide +kernel

/-- `sstore(1, calldataload(0))` behind it. -/
def storesWord : Func String :=
  [⟨loadSelector ++ [⟨0, "", .other "storageStore" [.const 0, .reg 4]⟩,
    ⟨0, "", .other "storageStore" [.const 1, .reg 3]⟩], .ret⟩]

/-- **A contract that stores the word next to the selector** finds four bytes of it. -/
theorem storesWord_not_sameUses : ∃ f', runOnFunction storesWord = some f' ∧
    ¬ ∀ n, (run countingHost f' emptyState n).bind (uses countingHost f') =
      (run countingHost storesWord emptyState n).bind (uses countingHost storesWord) := by
  have hsite : findSite storesWord (positions storesWord) = some (some ⟨0, 1, .shift⟩) := by
    decide +kernel
  refine ⟨(⟨0, 1, .shift⟩ : Site).rewrite storesWord, ?_, ?_⟩
  · rw [runOnFunction, hsite]
    rfl
  · intro h
    have h6 := h 6
    have hne : ¬ (run countingHost ((⟨0, 1, .shift⟩ : Site).rewrite storesWord) emptyState 6).bind
        (uses countingHost ((⟨0, 1, .shift⟩ : Site).rewrite storesWord)) =
          (run countingHost storesWord emptyState 6).bind (uses countingHost storesWord) := by
      decide +kernel
    exact hne h6

end EvmTrans.Llvm.CalldataCopyPass
