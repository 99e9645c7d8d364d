/-
# `EvmTrans.WordArithmetic` — arithmetic from the opcode to the whole run.

The modules before this one take the arithmetic apart: what one branch of `compileBasicBlock` emits,
what the loops of `Arith256` compute, how the blocks of a run follow the EVM whatever the opcodes
mean. For bytecode that keeps its registers 256 bits wide they fit together. `emittedArithmetic` is
what the code of an opcode leaves of words, behind `LowerEVMPass`; `evmArithmetic` is what the EVM
pushes; `emitted_exact_iff` says on which operands they are the same, opcode by opcode; and where a
run meets no others, the emitted function ends as the EVM does (`word_runs_alike`).
-/
import EvmTrans.Arith
import EvmTrans.Exp
import EvmTrans.RunsAlike
import EvmTrans.WordOpcodes
import EvmTrans.WordRegisters

namespace EvmTrans

open Lib (beBytes length_beBytes Ends EndsAlike)

/-! ## §1 — one opcode. -/

/-- The arithmetic, comparison and bitwise opcodes. -/
def Instruction.arithmetic : Instruction → Bool
  | .ADD | .MUL | .SUB | .DIV | .SDIV | .MOD | .SMOD | .ADDMOD | .MULMOD | .EXP | .SIGNEXTEND | .LT
  | .GT | .SLT | .SGT | .EQ | .ISZERO | .AND | .OR | .XOR | .NOT | .BYTE | .SHL | .SHR
  | .SAR => true
  | _ => false

/-- **What the emitted code leaves of words**, its multiplications and divisions lowered; `none`
where LLVM leaves it undefined. -/
def emittedArithmetic : Instruction → List Word → Option Word
  | .MUL, [a, b] => some (mul256 a b)
  | .DIV, [d, n] => udiv256 d n
  | .SDIV, [d, n] => sdiv256 d n
  | .MOD, [d, n] => urem256 d n
  | .SMOD, [d, n] => srem256 d n
  | .EXP, [b, e] => expFunc mul256 b e
  | .ADDMOD, [a, b, m] => emitAddmod a b m
  | .MULMOD, [a, b, m] => emitMulmod a b m
  | .SIGNEXTEND, [idx, word] => emitSignextend idx word
  | .BYTE, [idx, value] => emitByte false idx value
  | .SHL, [shift, value] => emitShift .SHL shift value
  | .SHR, [shift, value] => emitShift .SHR shift value
  | .SAR, [shift, value] => emitShift .SAR shift value
  | op, args => (emitOpcode op (args.map (Reg.mk .i256))).map Reg.denote

/-- **What the EVM pushes.** -/
def evmArithmetic : Instruction → List Word → Word
  | .EXP, [b, e] => BitVec.ofNat 256 (b.toNat ^ e.toNat)
  | .ADDMOD, [a, b, m] => if m = 0 then 0 else BitVec.ofNat 256 ((a.toNat + b.toNat) % m.toNat)
  | .MULMOD, [a, b, m] => if m = 0 then 0 else BitVec.ofNat 256 (a.toNat * b.toNat % m.toNat)
  | .SIGNEXTEND, [i, x] => if i.toNat ≤ 30 then (x.setWidth (8 * i.toNat + 8)).signExtend 256 else x
  | .BYTE, [i, x] => if i.toNat < 32 then ((beBytes 32 x.toNat).getD i.toNat 0).setWidth 256 else 0
  | .SHL, [s, x] => evmShift .SHL s x
  | .SHR, [s, x] => evmShift .SHR s x
  | .SAR, [s, x] => evmShift .SAR s x
  | op, args => evmWord op args

/-- **The operands that an opcode is exact on.** -/
def Exact : Instruction → List Word → Prop
  | .DIV, [_, n] => n ≠ 0
  | .SDIV, [_, n] => n ≠ 0
  | .MOD, [d, n] => n = 0 → d = 0
  | .SMOD, [d, n] => n = 0 → d = 0
  | .SHL, [shift, _] => shift.toNat < 256
  | .SHR, [shift, _] => shift.toNat < 256
  | .SAR, [shift, _] => shift.toNat < 256
  | _, _ => True

theorem emitAddmod_eq (a b m : Word) :
    emitAddmod a b m = some (evmArithmetic .ADDMOD [a, b, m]) := by
  have hadd := addFits_extend (by decide : 256 < 512) a b
  have h := modulo_select (a.setWidth 512 + b.setWidth 512) m
  rw [toNat_add_extend (by decide), Option.map_eq_bind] at h
  show _ = some (if m = 0 then _ else _)
  rw [← h]
  simp only [emitAddmod, createNUWAdd, if_pos hadd]
  rfl

theorem emitMulmod_eq (a b m : Word) :
    emitMulmod a b m = some (evmArithmetic .MULMOD [a, b, m]) := by
  have hmul := mulFits_extend (by decide : 256 + 256 ≤ 512) a b
  have h := modulo_select (a.setWidth 512 * b.setWidth 512) m
  rw [toNat_mul_extend (by decide), Option.map_eq_bind] at h
  show _ = some (if m = 0 then _ else _)
  rw [← h]
  simp only [emitMulmod, createNUWMul, if_pos hmul]
  rfl

/-- Sign extension, bit by bit. -/
theorem getLsbD_signExtend_setWidth (x : Word) {w j : Nat} (hw : 0 < w) (hj : j < 256) :
    ((x.setWidth w).signExtend 256).getLsbD j = if w - 1 < j then x.getLsbD (w - 1)
      else x.getLsbD j := by
  rw [BitVec.getLsbD_signExtend, decide_eq_true hj, Bool.true_and]
  by_cases hjw : j < w
  · rw [if_pos hjw, if_neg (by omega), BitVec.getLsbD_setWidth, decide_eq_true hjw, Bool.true_and]
  · rw [if_neg hjw, if_pos (by omega), BitVec.msb_eq_getLsbD_last, BitVec.getLsbD_setWidth,
      decide_eq_true (by omega : w - 1 < w), Bool.true_and]

theorem emitSignextend_exact (i x : Word) :
    emitSignextend i x = some (evmArithmetic .SIGNEXTEND [i, x]) := by
  rw [emitSignextend_eq]
  show _ = some (if i.toNat ≤ 30 then _ else x)
  by_cases hi : i.toNat ≤ 30
  · rw [if_pos hi, if_pos hi, Nat.mod_eq_of_lt (by omega : i.toNat < 32)]
    refine congrArg some (BitVec.eq_of_getLsbD_eq fun j hj => ?_)
    rw [getLsbD_signSelect x (by omega) hj, getLsbD_signExtend_setWidth x (by omega) hj]
    rfl
  · rw [if_neg hi, if_neg hi]

/-- Division by something. -/
theorem lowered_of_ne_zero (d : Word) {n : Word} (hn : n ≠ 0) : udiv256 d n = some (d / n) ∧
    urem256 d n = some (d % n) ∧ sdiv256 d n = some (d.sdiv n) ∧ srem256 d n = some (d.srem n) := by
  simp only [udiv256, urem256, sdiv256, srem256, udivrem_of_ne_zero d hn, sdivrem_eq d hn,
    Option.map_some, and_self]

/-- Division by zero: ones, or their negation, and the dividend. -/
theorem lowered_zero (d : Word) : (∃ q, udiv256 d 0 = some q ∧ q ≠ 0) ∧ urem256 d 0 = some d ∧
    (∃ q, sdiv256 d 0 = some q ∧ q ≠ 0) ∧ srem256 d 0 = some d := by
  obtain ⟨k, hs⟩ := sdivrem_zero d
  refine ⟨⟨_, by rw [udiv256, udivrem_zero, Option.map_some], ones_ne_zero _⟩,
    by rw [urem256, udivrem_zero]; rfl, ⟨_, by rw [sdiv256, hs, Option.map_some], ?_⟩, by
    rw [srem256, hs]; rfl⟩
  split
  · exact fun h => ones_ne_zero k (BitVec.neg_eq_zero_iff.mp h)
  · exact ones_ne_zero k

/-- The four divisions. -/
theorem division_exact_iff {op : Instruction} (hop : op ∈ [Instruction.DIV, .SDIV, .MOD, .SMOD])
    (d n : Word) :
    emittedArithmetic op [d, n] = some (evmArithmetic op [d, n]) ↔ Exact op [d, n] := by
  simp only [List.mem_cons, List.not_mem_nil, or_false] at hop
  by_cases hn : n = 0
  · subst hn
    obtain ⟨⟨q, hq, hq₀⟩, hr, ⟨q', hq', hq₀'⟩, hr'⟩ := lowered_zero d
    rcases hop with rfl | rfl | rfl | rfl
    · exact iff_of_false (fun h => hq₀ (Option.some.inj (hq.symm.trans h))) (fun h => h rfl)
    · exact iff_of_false (fun h => hq₀' (Option.some.inj (hq'.symm.trans h))) (fun h => h rfl)
    · show urem256 d 0 = some 0 ↔ (_ → _)
      rw [hr, Option.some_inj]
      exact ⟨fun h _ => h, fun h => h rfl⟩
    · show srem256 d 0 = some 0 ↔ (_ → _)
      rw [hr', Option.some_inj]
      exact ⟨fun h _ => h, fun h => h rfl⟩
  · obtain ⟨hq, hr, hq', hr'⟩ := lowered_of_ne_zero d hn
    rcases hop with rfl | rfl | rfl | rfl
    · exact iff_of_true (hq.trans (congrArg some (if_neg hn).symm)) hn
    · exact iff_of_true (hq'.trans (congrArg some (if_neg hn).symm)) hn
    · exact iff_of_true (hr.trans (congrArg some (if_neg hn).symm)) fun h => absurd h hn
    · exact iff_of_true (hr'.trans (congrArg some (if_neg hn).symm)) fun h => absurd h hn

/-- The three shifts. -/
theorem shift_exact_iff {op : Instruction} (hop : op ∈ [Instruction.SHL, .SHR, .SAR]) (s x : Word) :
    emittedArithmetic op [s, x] = some (evmArithmetic op [s, x]) ↔ Exact op [s, x] := by
  have hshift : emittedArithmetic op [s, x] = emitShift op s x ∧
      evmArithmetic op [s, x] = evmShift op s x ∧ (Exact op [s, x] ↔ s.toNat < 256) := by
    simp only [List.mem_cons, List.not_mem_nil, or_false] at hop
    rcases hop with rfl | rfl | rfl <;> exact ⟨rfl, rfl, Iff.rfl⟩
  rw [hshift.1, hshift.2.1, hshift.2.2]
  by_cases hs : s.toNat < 256
  · exact iff_of_true (emitShift_of_lt hop hs x) hs
  · refine iff_of_false (fun h => ?_) hs
    rw [emitShift_of_ge hop hs x] at h
    cases h

/-- On two words no operand is extended. -/
theorem emitArith_words (f : {n : Nat} → BitVec n → BitVec n → Option (BitVec n)) (a b : Word) :
    (emitArith f ⟨.i256, a⟩ ⟨.i256, b⟩).map Reg.denote = f a b := by
  rw [emitArith_same f .i256 a b, Option.map_map]
  exact (congrFun (congrArg Option.map (funext denote_word)) _).trans Option.map_id_apply

theorem emitCompare_words (p : {n : Nat} → BitVec n → BitVec n → Bool) (a b : Word) :
    (emitCompare p ⟨.i256, a⟩ ⟨.i256, b⟩).map Reg.denote = some (boolWord (p a b)) :=
  emitCompare_same p .i256 a b

/-- **Opcode by opcode**, the code leaves the EVM's word on the operands that `Exact` names, and on
no others. -/
theorem emitted_exact_iff {op : Instruction} (hop : op.arithmetic = true) {args : List Word}
    (hlen : args.length = op.removed) :
    emittedArithmetic op args = some (evmArithmetic op args) ↔ Exact op args := by
  cases op with
  | ADD | SUB | AND | OR | XOR =>
    obtain ⟨a, b, rfl⟩ := List.length_eq_two.mp hlen
    simp only [emittedArithmetic, emitOpcode]
    exact iff_of_true (emitArith_words _ a b) trivial
  | LT | GT | SLT | SGT | EQ =>
    obtain ⟨a, b, rfl⟩ := List.length_eq_two.mp hlen
    simp only [emittedArithmetic, emitOpcode]
    exact iff_of_true (emitCompare_words _ a b) trivial
  | NOT | ISZERO =>
    obtain ⟨a, rfl⟩ := List.length_eq_one_iff.mp hlen
    refine iff_of_true ?_ trivial
    first
      | exact congrArg some (denote_word _)
      | exact congrArg some (denote_ofBool _)
  | MUL =>
    obtain ⟨a, b, rfl⟩ := List.length_eq_two.mp hlen
    exact iff_of_true (congrArg some (mul256_eq a b)) trivial
  | EXP =>
    obtain ⟨b, e, rfl⟩ := List.length_eq_two.mp hlen
    exact iff_of_true (expFunc_eq mul256_eq b e) trivial
  | ADDMOD =>
    obtain ⟨a, b, m, rfl⟩ := List.length_eq_three.mp hlen
    exact iff_of_true (emitAddmod_eq a b m) trivial
  | MULMOD =>
    obtain ⟨a, b, m, rfl⟩ := List.length_eq_three.mp hlen
    exact iff_of_true (emitMulmod_eq a b m) trivial
  | SIGNEXTEND =>
    obtain ⟨i, x, rfl⟩ := List.length_eq_two.mp hlen
    exact iff_of_true (emitSignextend_exact i x) trivial
  | BYTE =>
    obtain ⟨i, x, rfl⟩ := List.length_eq_two.mp hlen
    exact iff_of_true (emitByte_eq false i x) trivial
  | DIV | SDIV | MOD | SMOD =>
    obtain ⟨d, n, rfl⟩ := List.length_eq_two.mp hlen
    exact division_exact_iff (by simp) d n
  | SHL | SHR | SAR =>
    obtain ⟨s, x, rfl⟩ := List.length_eq_two.mp hlen
    exact shift_exact_iff (by simp) s x
  | _ => cases hop

/-! ## §2 — the two machines. -/

instance (op : Instruction) (args : List Word) : Decidable (Exact op args) := by
  unfold Exact
  split <;> infer_instance

/-- The word that an opcode leaves in the emitted code. `other` is whatever the code, or the folder
in its place, makes of operands that the opcode is not exact on. -/
def emittedWord (other : Instruction → List Word → Word) (op : Instruction) (args : List Word) :
    Option Word :=
  if Exact op args then emittedArithmetic op args else some (other op args)

section Machines

variable {W : Type}

/-- **The emitted code's opcodes**: its own arithmetic, and `host` for everything else. -/
def emittedOps (host : Ops W) (other : Instruction → List Word → Word) : Ops W where
  exec op args w :=
    if op.arithmetic then (emittedWord other op args).map (·, w) else host.exec op args w
  output := host.output
  length_output := host.length_output

/-- **The EVM's opcodes**, in the same world. -/
def wordOps (host : Ops W) : Ops W where
  exec op args w := if op.arithmetic then some (evmArithmetic op args, w) else host.exec op args w
  output := host.output
  length_output := host.length_output

variable {host : Ops W} {other : Instruction → List Word → Word} {code : List Byte} {w : W}
  {e : EvmSt W}

/-- The opcode that is next in a state is exact on its operands. -/
def ExactAt (code : List Byte) (e : EvmSt W) : Prop :=
  (instAt code e.pc).arithmetic = true →
    Exact (instAt code e.pc) (e.stack.take (instAt code e.pc).removed)

/-- Where an opcode is exact, both machines take the same step. -/
theorem evmStep_emittedOps (h : ExactAt code e) :
    evmStep (emittedOps host other) code e = evmStep (wordOps host) code e := by
  by_cases ho : (instAt code e.pc).ordinary = true
  · rw [evmStep_ordinary _ _ _ ho, evmStep_ordinary _ _ _ ho]
    by_cases hlen : e.stack.length < (instAt code e.pc).removed
    · rw [if_pos hlen, if_pos hlen]
    · have hexec : (emittedOps host other).exec (instAt code e.pc)
          (e.stack.take (instAt code e.pc).removed) e.world =
          (wordOps host).exec (instAt code e.pc) (e.stack.take (instAt code e.pc).removed)
            e.world := by
        unfold emittedOps wordOps
        dsimp only
        by_cases ha : (instAt code e.pc).arithmetic = true
        · have htake : (e.stack.take (instAt code e.pc).removed).length =
              (instAt code e.pc).removed :=
            List.length_take_of_le (Nat.le_of_not_lt hlen)
          rw [if_pos ha, if_pos ha, emittedWord, if_pos (h ha),
            (emitted_exact_iff ha htake).mpr (h ha)]
          rfl
        · rw [if_neg ha, if_neg ha]
      rw [hexec]
  · unfold evmStep
    cases hi : instAt code e.pc with
    | _ => first
      | rfl
      | exact absurd (by rw [hi]; rfl) ho

theorem reported_emittedOps {env : CompileEnv} (h : ExactAt code e) :
    reported (emittedOps host other) env code e = reported (wordOps host) env code e := by
  unfold reported
  rw [evmStep_emittedOps h]

/-- Every opcode of a run is exact on its operands. -/
def RunsExactly (host : Ops W) (code : List Byte) (w : W) : Prop :=
  ∀ e, EvmReaches (wordOps host) code w e → ExactAt code e

section Exactly

variable (hexact : RunsExactly host code w)

include hexact

/-- Both machines reach the same states. -/
theorem reaches_emittedOps : EvmReaches (emittedOps host other) code w e ↔
    EvmReaches (wordOps host) code w e := by
  constructor
  · intro h
    induction h with
    | refl => exact Relation.ReflTransGen.refl
    | tail _ hstep ih => exact ih.next ((evmStep_emittedOps (hexact _ ih)).symm.trans hstep)
  · intro h
    induction h with
    | refl => exact Relation.ReflTransGen.refl
    | tail hr hstep ih => exact EvmReaches.next ih ((evmStep_emittedOps (hexact _ hr)).trans hstep)

theorem withinLimits_emittedOps (h : WithinLimits (wordOps host) code w) :
    WithinLimits (emittedOps host other) code w where
  operands e hr := h.operands e ((reaches_emittedOps hexact).mp hr)
  height e hr := h.height e ((reaches_emittedOps hexact).mp hr)

theorem fitsMstk_emittedOps (h : FitsMstk (wordOps host) code w) :
    FitsMstk (emittedOps host other) code w where
  inputs e hr := h.inputs e ((reaches_emittedOps hexact).mp hr)
  runOff e hr := h.runOff e ((reaches_emittedOps hexact).mp hr)
  spill e hr n hn := by
    have hr' := (reaches_emittedOps hexact).mp hr
    have hspill := h.spill e hr'
    cases hn with
    | leave hstep hto =>
      exact hspill _ (.leave ((evmStep_emittedOps (hexact e hr')).symm.trans hstep) hto)
    | jump hi hs => exact hspill _ (.jump hi hs)
    | jumpi hi hs => exact hspill _ (.jumpi hi hs)
    | stop hi => exact hspill _ (.stop hi)
    | undefined hi => exact hspill _ (.undefined hi)

end Exactly

end Machines

/-! ## §3 — the folder, and whole runs. -/

/-- **A folder that folds words as the code computes them**: it answers for arithmetic only, in the
type of the result, and on constants that LLVM has no answer for with the word that stands for
undefined. -/
structure CompileEnv.FoldsWords (env : CompileEnv) (other : Instruction → List Word → Word) :
    Prop where
  inType : env.FoldsInType
  fold : ∀ {op args v}, Words args → env.fold op args = some v →
    op.arithmetic = true ∧ ∀ ρ, emittedWord other op (args.map (Value.denote ρ)) = some (v.denote ρ)

instance (l : List Value) : Decidable (Words l) :=
  inferInstanceAs (Decidable (∀ v ∈ l, v.width = .i256))

/-- The compilation, with a folder that leaves narrow values alone. -/
def CompileEnv.onWords (env : CompileEnv) : CompileEnv where
  bytecode := env.bytecode
  retPC := env.retPC
  rtWasmCode := env.rtWasmCode
  fold op args := if Words args then env.fold op args else none
  fold_mem h := env.fold_mem (Option.ite_none_right_eq_some.mp h).2

section Runs

variable {W : Type} {env : CompileEnv} {host : Ops W} {other : Instruction → List Word → Word}

theorem foldsAlike_onWords (env : CompileEnv) : FoldsAlike env env.onWords where
  bytecode := rfl
  retPC := rfl
  rtWasmCode := rfl
  fold h := (if_pos h).symm

theorem sameOps_onWords (hfold : env.FoldsWords other)
    (hsize : ∀ w, host.exec .CODESIZE [] w =
      some (BitVec.ofNat 256 (env.bytecode.length % 2 ^ 32), w)) :
    SameOps (emittedOps host other) env.onWords where
  fold {op args v} h ρ w := by
    obtain ⟨hwords, h⟩ := Option.ite_none_right_eq_some.mp h
    obtain ⟨hop, hword⟩ := hfold.fold hwords h
    show (if op.arithmetic then (emittedWord other op _).map (·, w) else _) = _
    rw [if_pos hop, hword ρ]
    rfl
  codeSize := hsize

/-- **Bytecode of words runs as the EVM does.** Take any bytecode without the eight narrow opcodes,
whose run keeps the EVM's limits, fits `mstk` (so no run goes off the end of a code with a jump
destination), and neither divides by zero nor shifts by 256 or more. Then the endings of the emitted
function, with its arithmetic as it is emitted, lowered and folded, are what `reported` makes of
those of the EVM. -/
theorem word_runs_alike (host : Ops W) (other : Instruction → List Word → Word) (env : CompileEnv)
    (hfold : env.FoldsWords other)
    (hsize : ∀ w, host.exec .CODESIZE [] w =
      some (BitVec.ofNat 256 (env.bytecode.length % 2 ^ 32), w))
    (code : Bytecode) (hcode : NoNarrow code.bytes) (w : W)
    (hlim : WithinLimits (wordOps host) code.bytes w)
    (hfit : FitsMstk (wordOps host) code.bytes w) (hexact : RunsExactly host code.bytes w) :
    (∀ x, (∃ k, entryAt (emittedOps host other) (compileMain env code.bytes) w k = .error x) ↔
      ∃ e, (EvmReaches (wordOps host) code.bytes w e ∧
        ∀ e', evmStep (wordOps host) code.bytes e ≠ .next e') ∧
        x = reported (wordOps host) env code.bytes e) ∧
    ((∀ k, ∃ p, entryAt (emittedOps host other) (compileMain env code.bytes) w k = .ok p) ↔
      ∀ e, EvmReaches (wordOps host) code.bytes w e →
        ∃ e', evmStep (wordOps host) code.bytes e = .next e') := by
  have hsame : compileMain env code.bytes = compileMain env.onWords code.bytes :=
    compileMain_congr hfold.inType hcode (foldsAlike_onWords env) code.ne
  obtain ⟨calls, hf⟩ : ∃ calls, FunctionSpec env.onWords code.bytes calls :=
    compileMain_spec env.onWords code.ne
  have hwide : ∀ b ∈ compileMain env.onWords code.bytes, b.WideDest := by
    rw [← hsame]
    exact compileMain_wideDest hfold.inType hcode code.ne
  have halike :=
    compiled_endsAlike (sameOps_onWords hfold hsize) hf (withinLimits_emittedOps hexact hlim)
      (fitsMstk_emittedOps hexact hfit) hwide
  have hreach : ∀ e, EvmReaches (emittedOps host other) code.bytes w e ↔
      EvmReaches (wordOps host) code.bytes w e :=
    fun e => reaches_emittedOps hexact
  have hstep : ∀ e, EvmReaches (wordOps host) code.bytes w e →
      evmStep (emittedOps host other) code.bytes e = evmStep (wordOps host) code.bytes e :=
    fun e hr => evmStep_emittedOps (hexact e hr)
  have h₀ : entryAt (emittedOps host other) (compileMain env.onWords code.bytes) w 0 =
      .ok (0, St.init w) :=
    entryAt_zero hf
  obtain ⟨hends, hforever⟩ := runs_of_endsAlike h₀ halike
  rw [hsame]
  constructor
  · intro x
    rw [hends x]
    refine exists_congr fun e => ?_
    rw [hreach e, and_assoc, and_assoc]
    refine and_congr_right fun hr => ?_
    rw [hstep e hr, reported_emittedOps (hexact e hr)]
    rfl
  · rw [hforever]
    refine forall_congr' fun e => ?_
    rw [hreach e]
    exact forall_congr' fun hr => by rw [hstep e hr]

end Runs

/-! `PUSH1 3; PUSH1 7; DIV; SELFDESTRUCT`: the beneficiary is the quotient. -/

def sevenByThree : Bytecode where
  bytes := [0x60, 0x03, 0x60, 0x07, 0x04, 0xff]
  ne := by simp
  lt := by decide

theorem sevenByThree_reaches {e : EvmSt Unit}
    (h : EvmReaches (wordOps (trivialOps sevenByThree.bytes)) sevenByThree.bytes () e) :
    e = ⟨0, [], ()⟩ ∨ e = ⟨2, [3], ()⟩ ∨ e = ⟨4, [7, 3], ()⟩ ∨ e = ⟨5, [2], ()⟩ := by
  induction h with
  | refl => exact .inl rfl
  | tail _ hstep ih =>
    rcases ih with rfl | rfl | rfl | rfl
    · exact .inr (.inl (EvmRes.next.inj hstep).symm)
    · exact .inr (.inr (.inl (EvmRes.next.inj hstep).symm))
    · exact .inr (.inr (.inr (EvmRes.next.inj hstep).symm))
    · cases hstep

theorem sevenByThree_height {e : EvmSt Unit}
    (h : EvmReaches (wordOps (trivialOps sevenByThree.bytes)) sevenByThree.bytes () e) :
    e.stack.length ≤ 2 := by
  rcases sevenByThree_reaches h with rfl | rfl | rfl | rfl <;> decide

theorem sevenByThree_withinLimits :
    WithinLimits (wordOps (trivialOps sevenByThree.bytes)) sevenByThree.bytes () where
  operands := by
    intro e h
    rcases sevenByThree_reaches h with rfl | rfl | rfl | rfl <;> decide
  height := fun e h => (sevenByThree_height h).trans (by decide)

theorem sevenByThree_fitsMstk :
    FitsMstk (wordOps (trivialOps sevenByThree.bytes)) sevenByThree.bytes () where
  inputs := by
    intro e h
    rcases sevenByThree_reaches h with rfl | rfl | rfl | rfl <;> decide +kernel
  spill := spill_of_height fun _ h => (sevenByThree_height h).trans (by decide)
  runOff := by
    intro e h hoff
    rcases sevenByThree_reaches h with rfl | rfl | rfl | rfl <;> exact absurd hoff (by decide)

theorem sevenByThree_exact : RunsExactly (trivialOps sevenByThree.bytes) sevenByThree.bytes () := by
  intro e h
  rcases sevenByThree_reaches h with rfl | rfl | rfl | rfl
  · exact fun ha => absurd ha (by decide)
  · exact fun ha => absurd ha (by decide)
  · exact fun _ => (by decide : (3 : Word) ≠ 0)
  · exact fun ha => absurd ha (by decide)

theorem word_runs_alike_sevenByThree :
    ∃ k, entryAt (emittedOps (trivialOps sevenByThree.bytes) fun _ _ => 0)
      (compileMain (plainEnv sevenByThree.bytes) sevenByThree.bytes) () k =
        .error (.outcome (.selfDestruct 2) ()) := by
  have hfold : (plainEnv sevenByThree.bytes).FoldsWords fun _ _ => 0 :=
    ⟨fun h => (by cases h), fun _ h => (by cases h)⟩
  have hcode : NoNarrow sevenByThree.bytes := fun pc hpc =>
    (by decide : ∀ pc < sevenByThree.bytes.length, (instAt sevenByThree.bytes pc).narrow = false) pc
      hpc.1
  have hstart :
      EvmReaches (wordOps (trivialOps sevenByThree.bytes)) sevenByThree.bytes () ⟨0, [], ()⟩ :=
    .refl
  have hpushed :
      EvmReaches (wordOps (trivialOps sevenByThree.bytes)) sevenByThree.bytes () ⟨4, [7, 3], ()⟩ :=
    (show EvmReaches _ _ _ ⟨2, [3], ()⟩ from hstart.next rfl).next rfl
  have hreach :
      EvmReaches (wordOps (trivialOps sevenByThree.bytes)) sevenByThree.bytes () ⟨5, [2], ()⟩ :=
    hpushed.next rfl
  have hover : ∀ e', evmStep (wordOps (trivialOps sevenByThree.bytes)) sevenByThree.bytes
      ⟨5, [2], ()⟩ ≠ .next e' :=
    fun e' h => by cases h
  exact ((word_runs_alike (trivialOps sevenByThree.bytes) (fun _ _ => 0)
    (plainEnv sevenByThree.bytes) hfold (fun _ => rfl) sevenByThree hcode
    () sevenByThree_withinLimits sevenByThree_fitsMstk sevenByThree_exact).1 _).mpr
    ⟨_, ⟨hreach, hover⟩, rfl⟩

end EvmTrans
