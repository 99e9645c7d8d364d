/-
# `EvmTrans.OpcodeTypes` — when the emitted IR is well typed.

The branches of the switch differ in what they expect on the register stack. Some widen, some
truncate, some take 256 bits for granted, while `CALLDATASIZE`, `CODESIZE`, `RETURNDATASIZE`,
`EXTCODESIZE` and `EXTCODEHASH` push 32 bits and `CALLVALUE`, `BALANCE` and `SELFBALANCE` 128.
`Fits` is the table of what each branch needs, and `emitted_typed_iff` says of any run of the loop
over a block that all its requests obey LLVM's rules exactly when the operands of every instruction
fit.
-/
import EvmTrans.AddressBoundary
import EvmTrans.CompileShape
import EvmTrans.OpcodeRequests

namespace EvmTrans

/-! ## §1 — the table. -/

/-- The operands that a branch accepts, by their types alone; `EXP` also takes two constants of any
type. -/
def Fits : Instruction → List Value → Prop
  | .ADDMOD, [_, _, m] | .MULMOD, [_, _, m] => m.width = .i256
  | .EXP, [base, exponent] =>
    (base.isConst = true ∧ exponent.isConst = true) ∨ (base.width = .i256 ∧ exponent.width = .i256)
  | .BYTE, [idx, value] | .SIGNEXTEND, [idx, value] => idx.width = .i256 ∧ value.width = .i256
  | .SHL, [shift, value] | .SHR, [shift, value] | .SAR, [shift, value] => shift.width = value.width
  | .SLOAD, [v] | .BLOCKHASH, [v] | .BALANCE, [v] | .EXTCODESIZE, [v] | .EXTCODEHASH, [v]
  | .JUMP, [v]
  | .JUMPI, [v, _] | .EXTCODECOPY, [v, _, _, _] => v.width = .i256
  | .CREATE, [endowment, _, _] => endowment.width ≠ .i32
  | .CREATE2, [endowment, _, _, salt] => endowment.width ≠ .i32 ∧ salt.width ≠ .i32
  | .CALL, [callGas, address, value, _, _, _, _] | .CALLCODE,
      [callGas, address, value, _, _, _, _] =>
    callGas.width ≠ .i32 ∧ address.width = .i256 ∧ value.width ≠ .i32
  | .DELEGATECALL, [callGas, address, _, _, _, _] | .STATICCALL, [callGas, address, _, _, _, _] =>
    callGas.width ≠ .i32 ∧ address.width = .i256
  | _, _ => True

/-! ## §2 — the rules, request by request. -/

namespace BuilderRequest

@[simp] theorem wellTyped_binOp (m n : Nat) : (binOp (.int m) (.int n)).wellTyped = true ↔ m = n :=
  beq_iff_eq

@[simp] theorem wellTyped_icmp (m n : Nat) : (icmp (.int m) (.int n)).wellTyped = true ↔ m = n :=
  beq_iff_eq

@[simp] theorem wellTyped_shift (m n : Nat) : (shift (.int m) (.int n)).wellTyped = true ↔ m = n :=
  beq_iff_eq

@[simp] theorem wellTyped_zext (m n : Nat) : (zext (.int m) (.int n)).wellTyped = true ↔ m < n :=
  decide_eq_true_iff

@[simp] theorem wellTyped_trunc (m n : Nat) : (trunc (.int m) (.int n)).wellTyped = true ↔ n < m :=
  decide_eq_true_iff

@[simp] theorem wellTyped_load (p t : Ty) : (load p t).wellTyped = true ↔ p = .ptr t := beq_iff_eq

@[simp] theorem wellTyped_call (params args : List Ty) : (call params args).wellTyped = true ↔
    args = params :=
  beq_iff_eq

@[simp] theorem wellTyped_select (c t f : Ty) : (select c t f).wellTyped = true ↔
    c = .int 1 ∧ t = f := by
  simp [wellTyped]

@[simp] theorem wellTyped_alloca (n : Nat) : (alloca (.int n)).wellTyped = true := rfl

@[simp] theorem wellTyped_bitCast_ptr (t u : Ty) :
    (bitCast (.ptr t) (.ptr u)).wellTyped = true := rfl

@[simp] theorem wellTyped_bitCast_bytes (m n : Nat) :
    (bitCast (.int m) (.vec n (.int 8))).wellTyped = true ↔ m = n * 8 := beq_iff_eq

@[simp] theorem wellTyped_intToPtr (n : Nat) (t : Ty) :
    (intToPtr (.int n) (.ptr t)).wellTyped = true := rfl

@[simp] theorem wellTyped_gep (t : Ty) (m n : Nat) :
    (gep (.ptr (.array t)) [.int m, .int n]).wellTyped = true := rfl

@[simp] theorem wellTyped_extractElement (k n : Nat) (t : Ty) :
    (extractElement (.vec k t) (.int n)).wellTyped = true := rfl

end BuilderRequest

namespace Emission

variable {α β : Type}

/-- **Every request obeys LLVM's rules.** -/
def Typed (m : Emission α) : Prop := ∀ r ∈ m.requests, r.wellTyped = true

@[simp] theorem typed_pure (a : α) : (pure a : Emission α).Typed ↔ True :=
  iff_true_intro fun _ h => absurd h List.not_mem_nil

@[simp] theorem value_pure (a : α) : (pure a : Emission α).value = a := rfl

@[simp] theorem typed_bind (m : Emission α) (f : α → Emission β) :
    (m >>= f).Typed ↔ m.Typed ∧ (f m.value).Typed := by
  show (∀ r ∈ m.requests ++ (f m.value).requests, _) ↔ _
  rw [List.forall_mem_append]
  rfl

@[simp] theorem value_bind (m : Emission α) (f : α → Emission β) :
    (m >>= f).value = (f m.value).value := rfl

@[simp] theorem typed_ask (r : BuilderRequest) (ty : Ty) (c : Bool) : (ask r ty c).Typed ↔
    r.wellTyped = true :=
  List.forall_mem_singleton

@[simp] theorem value_ask (r : BuilderRequest) (ty : Ty) (c : Bool) :
    (ask r ty c).value = ⟨ty, c⟩ := rfl

@[simp] theorem typed_createStore (v p : Operand) : (createStore v p).Typed ↔ p.ty = .ptr v.ty := by
  show (∀ r ∈ [BuilderRequest.store v.ty p.ty], _) ↔ _
  rw [List.forall_mem_singleton]
  exact beq_iff_eq

@[simp] theorem typed_createBr : createBr.Typed ↔ True :=
  iff_true_intro (List.forall_mem_singleton.mpr rfl)

@[simp] theorem typed_createCondBr (c : Operand) : (createCondBr c).Typed ↔ c.ty = .int 1 := by
  show (∀ r ∈ [BuilderRequest.condBr c.ty], _) ↔ _
  rw [List.forall_mem_singleton]
  exact beq_iff_eq

attribute [simp] constant createBinOp createICmp createShift createAlloca createLoad createGEP
  createSelect createExtractElement createCall Ty.elem

@[simp] theorem typed_createZExt (m n : Nat) (c : Bool) :
    (createZExt ⟨.int m, c⟩ (.int n)).Typed ↔ m ≤ n := by
  unfold createZExt
  by_cases h : m = n
  · simp [h]
  · simp [h]
    omega

@[simp] theorem typed_createTrunc (m n : Nat) (c : Bool) :
    (createTrunc ⟨.int m, c⟩ (.int n)).Typed ↔ n ≤ m := by
  unfold createTrunc
  by_cases h : m = n
  · simp [h]
  · simp [h]
    omega

/-- On integers `CreateTruncOrBitCast` is `CreateTrunc`: no other two integer types have one
size. -/
@[simp] theorem createTruncOrBitCast_int (m n : Nat) (c : Bool) :
    createTruncOrBitCast ⟨.int m, c⟩ (.int n) = createTrunc ⟨.int m, c⟩ (.int n) := by
  unfold createTruncOrBitCast createTrunc
  by_cases h : m = n
  · simp [h]
  · simp [h, Ty.scalarBits]

/-- The casts return a value of the type asked for. -/
@[simp] theorem value_createZExt (v : Operand) (ty : Ty) :
    (createZExt v ty).value = ⟨ty, v.isConst⟩ := by
  unfold createZExt
  split
  · rename_i h
    cases h
    rfl
  · rfl

@[simp] theorem value_createTrunc (v : Operand) (ty : Ty) :
    (createTrunc v ty).value = ⟨ty, v.isConst⟩ := by
  unfold createTrunc
  split
  · rename_i h
    cases h
    rfl
  · rfl

@[simp] theorem typed_createTruncOrBitCast_ptr (t u : Ty) (c : Bool) :
    (createTruncOrBitCast ⟨.ptr t, c⟩ (.ptr u)).Typed := by
  unfold createTruncOrBitCast
  split <;> simp [Ty.scalarBits]

@[simp] theorem value_createTruncOrBitCast (v : Operand) (ty : Ty) :
    (createTruncOrBitCast v ty).value = ⟨ty, v.isConst⟩ := by
  unfold createTruncOrBitCast
  split
  · rename_i h
    cases h
    rfl
  · split <;> rfl

@[simp] theorem typed_createBitCast_ptr (t u : Ty) (c : Bool) :
    (createBitCast ⟨.ptr t, c⟩ (.ptr u)).Typed := by
  unfold createBitCast
  split <;> simp

@[simp] theorem typed_createBitCast_bytes (m n : Nat) (c : Bool) :
    (createBitCast ⟨.int m, c⟩ (.vec n (.int 8))).Typed ↔ m = n * 8 := by
  simp [createBitCast]

@[simp] theorem value_createBitCast (v : Operand) (ty : Ty) :
    (createBitCast v ty).value = ⟨ty, v.isConst⟩ := by
  unfold createBitCast
  split
  · rename_i h
    cases h
    rfl
  · rfl

@[simp] theorem typed_createIntToPtr (n : Nat) (c : Bool) (t : Ty) :
    (createIntToPtr ⟨.int n, c⟩ (.ptr t)).Typed := by
  simp [createIntToPtr]

@[simp] theorem value_createIntToPtr (n : Nat) (c : Bool) (t : Ty) :
    (createIntToPtr ⟨.int n, c⟩ (.ptr t)).value = ⟨.ptr t, false⟩ := by
  simp [createIntToPtr]

@[simp] theorem value_emitEndianConvert (v : Operand) : (emitEndianConvert v).value = v := by
  obtain ⟨ty, c⟩ := v
  cases c with
  | true => rfl
  | false => simp [emitEndianConvert]

/-- The extension in front of the swap. -/
theorem createZExtOrTrunc_word {n : Nat} (hn : n ≤ 256) (c : Bool) :
    createZExtOrTrunc ⟨.int n, c⟩ Ty.word = createZExt ⟨.int n, c⟩ Ty.word := by
  unfold createZExtOrTrunc
  rcases Nat.lt_or_eq_of_le hn with h | rfl
  · exact if_pos h
  · rfl

/-- A conversion of at most a word is well typed, by either path. -/
theorem typed_emitEndianConvert {n : Nat} (hn : n ≤ 256) (c : Bool) :
    (emitEndianConvert ⟨.int n, c⟩).Typed := by
  cases c with
  | true => exact (typed_pure _).mpr trivial
  | false =>
    by_cases h : n = 256
    · subst h
      simp [emitEndianConvert, createZExtOrTrunc_word hn, funcBswap256]
    · simp [emitEndianConvert, createZExtOrTrunc_word hn, funcBswap256, h, hn]

/-! ## §3 — the branches. -/

@[simp] theorem ty_operand (v : Value) : v.operand = ⟨.int v.width.bits, v.isConst⟩ := rfl

@[simp] theorem bits_le_word (w : Width) : w.bits ≤ 256 := by
  cases w <;> decide

@[simp] theorem bits_eq_word (w : Width) : w.bits = 256 ↔ w = .i256 := by
  cases w <;> decide

/-- The types in the order that a store compares them in. -/
theorem word_eq_bits {w : Width} : 256 = w.bits ↔ w = .i256 := by
  rw [eq_comm, bits_eq_word]

theorem bits_inj {w u : Width} : w.bits = u.bits ↔ w = u := by
  cases w <;> cases u <;> decide

section Branches

variable {a b c d e f g : Value}

theorem typed_arith : (arith a.operand b.operand).Typed := by
  unfold arith sameType
  by_cases h : a.width.bits = b.width.bits
  · simp [h]
  · simp [h]

theorem typed_mul : (mul a.operand b.operand).Typed := by
  unfold mul
  by_cases h : a.width.bits = b.width.bits
  · simp [h]
  · simp [h]

theorem typed_compare : (compare a.operand b.operand).Typed := by
  unfold compare sameType
  by_cases h : a.width.bits = b.width.bits
  · simp [h]
  · simp [h]

theorem typed_bnot : (bnot a.operand).Typed := by
  simp [bnot]

theorem typed_iszero : (iszero a.operand).Typed := by
  simp [iszero]

theorem typed_modArith : (modArith a.operand b.operand c.operand).Typed ↔ c.width = .i256 := by
  have hle : ∀ w : Width, w.bits ≤ 512 := fun w => Nat.le_trans (bits_le_word w) (by decide)
  simp [modArith, hle]

theorem typed_exp : (exp a.operand b.operand).Typed ↔
    (a.isConst = true ∧ b.isConst = true) ∨ (a.width = .i256 ∧ b.width = .i256) := by
  unfold exp
  by_cases h : a.isConst = true ∧ b.isConst = true
  · simp [h]
  · simp [h, funcExp]

/-- Once the index is a word, its truncation to five bits is one. -/
theorem five_le_of_word (h : a.width = .i256) : 5 ≤ a.width.bits := by
  rw [h]
  decide

theorem typed_byte : (byte a.operand b.operand).Typed ↔ a.width = .i256 ∧ b.width = .i256 := by
  have hconv := typed_emitEndianConvert (bits_le_word b.width) b.isConst
  simp [byte, hconv]
  exact fun ha _ => five_le_of_word ha

theorem typed_signextend : (signextend a.operand b.operand).Typed ↔
    a.width = .i256 ∧ b.width = .i256 := by
  simp [signextend]
  constructor
  · rintro ⟨-, hb, -, -, ha⟩
    exact ⟨ha, hb⟩
  · rintro ⟨ha, hb⟩
    refine ⟨five_le_of_word ha, hb, ?_, hb, ha⟩
    rw [hb]
    decide

theorem typed_shift : (createShift b.operand a.operand).Typed ↔ a.width = b.width := by
  simp [bits_inj]
  exact eq_comm

theorem typed_word (isConst : Bool) : (emitEndianConvert ⟨Ty.word, isConst⟩).Typed :=
  typed_emitEndianConvert (Nat.le_refl 256) isConst

theorem typed_address (isConst : Bool) : (emitEndianConvert ⟨.int 160, isConst⟩).Typed :=
  typed_emitEndianConvert (by decide) isConst

theorem typed_sha3 (hb : 32 ≤ b.width.bits) : (sha3 a.operand b.operand).Typed := by
  simp [sha3, funcKeccak256, typed_word, hb]

theorem typed_mload : (mload a.operand).Typed := by
  simp [mload, typed_word]

theorem typed_mstore : (mstore a.operand b.operand).Typed := by
  simp [mstore, typed_word]

theorem typed_mstore8 (hb : 32 ≤ b.width.bits) : (mstore8 a.operand b.operand).Typed := by
  have hbyte := fun c => typed_emitEndianConvert (show 8 ≤ 256 by decide) c
  simp [mstore8, hbyte]
  omega

theorem typed_sload : (sload a.operand).Typed ↔ a.width = .i256 := by
  have hconv := typed_emitEndianConvert (bits_le_word a.width) a.isConst
  simp [sload, funcStorageLoad, typed_word, hconv]
  exact word_eq_bits

theorem typed_sstore : (sstore a.operand b.operand).Typed := by
  simp [sstore, funcStorageStore, typed_word]

theorem typed_blockhash : (blockhash a.operand).Typed ↔ a.width = .i256 := by
  simp [blockhash, funcGetBlockHash, typed_word]
  intro ha
  rw [ha]
  decide

theorem typed_balance : (balance a.operand).Typed ↔ 160 ≤ a.width.bits := by
  simp [balance, funcGetExternalBalance]

theorem typed_extcodesize : (extcodesize a.operand).Typed ↔ 160 ≤ a.width.bits := by
  simp [extcodesize, funcGetExternalCodeSize, typed_address]

theorem typed_extcodehash : (extcodehash a.operand).Typed ↔ 160 ≤ a.width.bits := by
  simp [extcodehash, funcGetExternalCodeHash]

theorem typed_dataCopy {p : Func} (hp : p.params = [Ty.i8Ptr, .int 32, .int 32])
    (hb : 32 ≤ b.width.bits) (hc : 32 ≤ c.width.bits) :
    (dataCopy p a.operand b.operand c.operand).Typed := by
  simp [dataCopy, hp, hb, hc]

theorem typed_codecopy (hb : 32 ≤ b.width.bits) (hc : 32 ≤ c.width.bits) :
    (codecopy a.operand b.operand c.operand).Typed := by
  simp [codecopy, funcMemcpy, hb, hc]

theorem typed_extcodecopy (hc : 32 ≤ c.width.bits) (hd : 32 ≤ d.width.bits) :
    (extcodecopy a.operand b.operand c.operand d.operand).Typed ↔ 160 ≤ a.width.bits := by
  simp [extcodecopy, funcExternalCodeCopy, hc, hd]

theorem typed_calldataload (ha : 32 ≤ a.width.bits) : (calldataload a.operand).Typed := by
  simp [calldataload, funcCallDataCopy, typed_word, ha]

theorem typed_slot128 : (slot128 a.operand).Typed ↔ 128 ≤ a.width.bits := by
  simp [slot128]

@[simp] theorem value_slot128 (v : Operand) : (slot128 v).value = ⟨Ty.i32Ptr, false⟩ := by
  simp [slot128]

theorem typed_create (hc : 32 ≤ c.width.bits) :
    (create a.operand b.operand c.operand).Typed ↔ 128 ≤ a.width.bits := by
  have hslot : (slot128 a.operand).Typed ↔ _ := typed_slot128
  rw [ty_operand] at hslot
  simp [create, funcCreate, hslot, hc]

theorem typed_create2 (hc : 32 ≤ c.width.bits) :
    (create2 a.operand b.operand c.operand d.operand).Typed ↔
    128 ≤ a.width.bits ∧ 128 ≤ d.width.bits := by
  have hslot : ∀ v : Value, (slot128 v.operand).Typed ↔ 128 ≤ v.width.bits := fun _ => typed_slot128
  simp only [ty_operand] at hslot
  simp [create2, funcCreate2, hslot, hc]

theorem typed_afterCall (hb : 32 ≤ b.width.bits) (c : Bool) :
    (afterCall ⟨.int 32, c⟩ a.operand b.operand).Typed := by
  simp [afterCall, funcReturnDataCopy, hb]

theorem typed_call {p : Func}
    (hp : p.params = [.int 64, .ptr (.int 160), Ty.i32Ptr, Ty.i8Ptr, .int 32])
    (hr : p.ret = .int 32) (he : 32 ≤ e.width.bits) (hg : 32 ≤ g.width.bits) :
    (call p a.operand b.operand c.operand d.operand e.operand f.operand g.operand).Typed ↔
      64 ≤ a.width.bits ∧ 160 ≤ b.width.bits ∧ 128 ≤ c.width.bits := by
  have hafter : (afterCall ⟨.int 32, false⟩ f.operand g.operand).Typed := typed_afterCall hg false
  simp only [ty_operand] at hafter
  simp [call, hp, hr, typed_address, he, hafter]

theorem typed_delegatecall {p : Func}
    (hp : p.params = [.int 64, .ptr (.int 160), Ty.i8Ptr, .int 32])
    (hr : p.ret = .int 32) (hd : 32 ≤ d.width.bits) (hf : 32 ≤ f.width.bits) :
    (delegatecall p a.operand b.operand c.operand d.operand e.operand f.operand).Typed ↔
      64 ≤ a.width.bits ∧ 160 ≤ b.width.bits := by
  have hafter : (afterCall ⟨.int 32, false⟩ e.operand f.operand).Typed := typed_afterCall hf false
  simp only [ty_operand] at hafter
  simp [delegatecall, hp, hr, typed_address, hd, hafter]

theorem typed_jump : (jump a.operand).Typed ↔ a.width = .i256 := by
  simp [jump]
  exact word_eq_bits

theorem typed_jumpi : (jumpi a.operand b.operand).Typed ↔ a.width = .i256 := by
  simp [jumpi]
  exact word_eq_bits

theorem typed_ret (isRuntime : Bool) (hb : 32 ≤ b.width.bits) :
    (ret isRuntime a.operand b.operand).Typed := by
  cases isRuntime <;> simp [ret, funcFinish, hb]

theorem typed_revert (hb : 32 ≤ b.width.bits) : (revert a.operand b.operand).Typed := by
  simp [revert, funcRevert, hb]

theorem typed_suicide : (suicide a.operand).Typed := by
  simp [suicide, funcSelfDestruct]

/-- A slot of any integer type takes its topic, and every slot is passed as an `i32*`. -/
theorem typed_topicSlots :
    ∀ topics : List Value, (topicSlots (topics.map Value.operand)).Typed := by
  intro topics
  induction topics with
  | nil => exact (typed_pure _).mpr trivial
  | cons t ts ih => simpa [topicSlots] using ih

theorem value_topicSlots : ∀ topics : List Operand,
    (topicSlots topics).value = List.replicate topics.length ⟨Ty.i32Ptr, false⟩ := by
  intro topics
  induction topics with
  | nil => rfl
  | cons t ts ih =>
    rw [List.length_cons, List.replicate_succ, ← ih]
    simp [topicSlots]

theorem typed_log (topics : List Value) (hb : 32 ≤ b.width.bits) :
    (log a.operand b.operand (topics.map Value.operand)).Typed := by
  have hslots := typed_topicSlots topics
  -- with the null pointers there are at least four slots, and four are passed
  have hfour : min 4 (topics.length + (4 - topics.length)) = 4 := by omega
  simp [log, funcLog, hslots, value_topicSlots, hb]
  rw [hfour]
  rfl

end Branches

/-- The branches without operands. -/
theorem typed_pushCall {p : Func} {n : Nat} (hp : p.params = []) (hr : p.ret = .int n)
    (hn : n ≤ 256) : (pushCall p).Typed := by
  simp [pushCall, hp, hr, hn]

theorem typed_pushAddress {p : Func} (hp : p.params = [Ty.i32Ptr]) (convert : Bool) :
    (pushAddress p convert).Typed := by
  cases convert <;> simp [pushAddress, hp, typed_address]

theorem typed_pushStored {p : Func} (hp : p.params = [Ty.i32Ptr]) (n : Nat) :
    (pushStored p (.int n)).Typed := by
  simp [pushStored, hp]

theorem typed_gasprice :
    (do let value ← pushStored funcGetTxGasPrice (.int 128); createZExt value Ty.word :
      Emission Operand).Typed := by
  simp [pushStored, funcGetTxGasPrice]

theorem typed_callvalue : callvalue.Typed := by
  simp [callvalue, funcGetCallValue]

@[simp] theorem typed_pushes (m : Emission Operand) : (pushes m).Typed ↔ m.Typed := by
  simp [pushes]

@[simp] theorem typed_silent (m : Emission Unit) : (silent m).Typed ↔ m.Typed := by
  simp [silent]

end Emission

/-! ## §4 — the switch. -/

/-- The calls of `stack.pop()` in any branch, those that `compileInst` writes out included. -/
def Instruction.branchPops : Instruction → Nat
  | .POP | .JUMP | .SUICIDE => 1
  | .JUMPI | .RETURN | .REVERT => 2
  | inst => inst.popCalls

section Switch

open Emission

variable {inst : Instruction} {a b c : Value}

theorem branch_typed_nullary (isRuntime : Bool) (h : inst.branchPops = 0) :
    (branch isRuntime inst []).Typed ↔ Fits inst [] := by
  cases inst with
  | GAS | GASLIMIT | CHAINID | BASEFEE | NUMBER | TIMESTAMP =>
    exact iff_of_true ((typed_pushes _).mpr (typed_pushCall rfl rfl (by decide))) trivial
  | ADDRESS | CALLER | ORIGIN | COINBASE =>
    exact iff_of_true ((typed_pushes _).mpr (typed_pushAddress rfl _)) trivial
  | DIFFICULTY | SELFBALANCE =>
    exact iff_of_true ((typed_pushes _).mpr (typed_pushStored rfl _)) trivial
  | GASPRICE => exact iff_of_true ((typed_pushes _).mpr typed_gasprice) trivial
  | CALLVALUE => exact iff_of_true ((typed_pushes _).mpr typed_callvalue) trivial
  | MSIZE | CALLDATASIZE | RETURNDATASIZE =>
    exact iff_of_true ((typed_pushes _).mpr ((typed_ask _ _ _).mpr rfl)) trivial
  | STOP => exact iff_of_true ((typed_silent _).mpr (typed_createBr.mpr trivial)) trivial
  | LOG n => exact absurd h (Nat.ne_of_gt (Nat.add_pos_left Nat.two_pos n))
  | PC | CODESIZE | JUMPDEST | PUSH n | DUP n | SWAP n | UNDEFINED b =>
    exact iff_of_true ((typed_pure _).mpr trivial) trivial
  | _ => cases h

theorem branch_typed_unary (isRuntime : Bool) (h : inst.branchPops = 1) (ha : a.width ≠ .i1) :
    (branch isRuntime inst [a.operand]).Typed ↔ Fits inst [a] := by
  obtain ⟨h32, -, -, h160⟩ := Width.bits_iff ha
  cases inst with
  | NOT => exact iff_of_true ((typed_pushes _).mpr typed_bnot) trivial
  | ISZERO => exact iff_of_true ((typed_pushes _).mpr typed_iszero) trivial
  | MLOAD => exact iff_of_true ((typed_pushes _).mpr typed_mload) trivial
  | CALLDATALOAD => exact iff_of_true ((typed_pushes _).mpr (typed_calldataload h32)) trivial
  | SLOAD => exact (typed_pushes _).trans typed_sload
  | BLOCKHASH => exact (typed_pushes _).trans typed_blockhash
  | BALANCE => exact (typed_pushes _).trans (typed_balance.trans h160)
  | EXTCODESIZE => exact (typed_pushes _).trans (typed_extcodesize.trans h160)
  | EXTCODEHASH => exact (typed_pushes _).trans (typed_extcodehash.trans h160)
  | JUMP => exact (typed_silent _).trans typed_jump
  | SUICIDE => exact iff_of_true ((typed_silent _).mpr typed_suicide) trivial
  | POP => exact iff_of_true ((typed_pure _).mpr trivial) trivial
  | LOG n => exact absurd h (Nat.ne_of_gt (Nat.lt_add_right n Nat.one_lt_two))
  | _ => cases h

theorem branch_typed_binary (isRuntime : Bool) (h : inst.branchPops = 2) (hb : b.width ≠ .i1) :
    (branch isRuntime inst [a.operand, b.operand]).Typed ↔ Fits inst [a, b] := by
  have h32 : 32 ≤ b.width.bits := (Width.bits_iff hb).1
  cases inst with
  | ADD | SUB | DIV | SDIV | MOD | SMOD | AND | OR | XOR =>
    exact iff_of_true ((typed_pushes _).mpr typed_arith) trivial
  | MUL => exact iff_of_true ((typed_pushes _).mpr typed_mul) trivial
  | LT | GT | SLT | SGT | EQ => exact iff_of_true ((typed_pushes _).mpr typed_compare) trivial
  | EXP => exact (typed_pushes _).trans typed_exp
  | SIGNEXTEND => exact (typed_pushes _).trans typed_signextend
  | BYTE => exact (typed_pushes _).trans typed_byte
  | SHL | SHR | SAR => exact (typed_pushes _).trans typed_shift
  | SHA3 => exact iff_of_true ((typed_pushes _).mpr (typed_sha3 h32)) trivial
  | MSTORE => exact iff_of_true ((typed_silent _).mpr typed_mstore) trivial
  | MSTORE8 => exact iff_of_true ((typed_silent _).mpr (typed_mstore8 h32)) trivial
  | SSTORE => exact iff_of_true ((typed_silent _).mpr typed_sstore) trivial
  | JUMPI => exact (typed_silent _).trans typed_jumpi
  | RETURN => exact iff_of_true ((typed_silent _).mpr (typed_ret isRuntime h32)) trivial
  | REVERT => exact iff_of_true ((typed_silent _).mpr (typed_revert h32)) trivial
  | LOG n => exact iff_of_true ((typed_silent _).mpr (typed_log [] h32)) trivial
  | _ => cases h

theorem branch_typed_ternary (isRuntime : Bool) (h : inst.branchPops = 3) (ha : a.width ≠ .i1)
    (hb : b.width ≠ .i1) (hc : c.width ≠ .i1) :
    (branch isRuntime inst [a.operand, b.operand, c.operand]).Typed ↔ Fits inst [a, b, c] := by
  have h128 : 128 ≤ a.width.bits ↔ a.width ≠ .i32 := (Width.bits_iff ha).2.2.1
  have hb32 : 32 ≤ b.width.bits := (Width.bits_iff hb).1
  have hc32 : 32 ≤ c.width.bits := (Width.bits_iff hc).1
  cases inst with
  | ADDMOD | MULMOD => exact (typed_pushes _).trans typed_modArith
  | CALLDATACOPY | RETURNDATACOPY =>
    exact iff_of_true ((typed_silent _).mpr (typed_dataCopy rfl hb32 hc32)) trivial
  | CODECOPY => exact iff_of_true ((typed_silent _).mpr (typed_codecopy hb32 hc32)) trivial
  | CREATE => exact (typed_pushes _).trans ((typed_create hc32).trans h128)
  | LOG n => exact iff_of_true ((typed_silent _).mpr (typed_log [c] hb32)) trivial
  | _ => cases h

variable {args : List Value}

/-- A list of known length, by its elements. -/
theorem eq_two_more {n : Nat} (h : args.length = 2 + n) : ∃ a b l, args = a :: b :: l := by
  match args with
  | a :: b :: l => exact ⟨a, b, l, rfl⟩
  | [] | [a] => exact absurd h (by simp; omega)

theorem eq_four (h : args.length = 4) : ∃ a b c d, args = [a, b, c, d] := by
  match args, h with
  | [a, b, c, d], _ => exact ⟨a, b, c, d, rfl⟩

theorem eq_six (h : args.length = 6) : ∃ a b c d e f, args = [a, b, c, d, e, f] := by
  match args, h with
  | [a, b, c, d, e, f], _ => exact ⟨a, b, c, d, e, f, rfl⟩

theorem eq_seven (h : args.length = 7) : ∃ a b c d e f g, args = [a, b, c, d, e, f, g] := by
  match args, h with
  | [a, b, c, d, e, f, g], _ => exact ⟨a, b, c, d, e, f, g, rfl⟩

theorem branch_typed_many (isRuntime : Bool) (h : 4 ≤ inst.branchPops)
    (hlen : args.length = inst.branchPops) (hw : ∀ v ∈ args, v.width ≠ .i1) :
    (branch isRuntime inst (args.map Value.operand)).Typed ↔ Fits inst args := by
  have h32 : ∀ v ∈ args, 32 ≤ v.width.bits := fun v hv => (Width.bits_iff (hw v hv)).1
  have h64 : ∀ v ∈ args, (64 ≤ v.width.bits ↔ v.width ≠ .i32) :=
    fun v hv => (Width.bits_iff (hw v hv)).2.1
  have h128 : ∀ v ∈ args, (128 ≤ v.width.bits ↔ v.width ≠ .i32) :=
    fun v hv => (Width.bits_iff (hw v hv)).2.2.1
  have h160 : ∀ v ∈ args, (160 ≤ v.width.bits ↔ v.width = .i256) :=
    fun v hv => (Width.bits_iff (hw v hv)).2.2.2
  cases inst with
  | EXTCODECOPY =>
    obtain ⟨a, b, c, d, rfl⟩ := eq_four hlen
    exact (typed_silent _).trans
      ((typed_extcodecopy (h32 c (by simp)) (h32 d (by simp))).trans (h160 a (by simp)))
  | CREATE2 =>
    obtain ⟨a, b, c, d, rfl⟩ := eq_four hlen
    exact (typed_pushes _).trans
      ((typed_create2 (h32 c (by simp))).trans (and_congr (h128 a (by simp)) (h128 d (by simp))))
  | CALL | CALLCODE =>
    obtain ⟨a, b, c, d, e, f, g, rfl⟩ := eq_seven hlen
    exact (typed_pushes _).trans ((typed_call rfl rfl (h32 e (by simp)) (h32 g (by simp))).trans
      (and_congr (h64 a (by simp)) (and_congr (h160 b (by simp)) (h128 c (by simp)))))
  | DELEGATECALL | STATICCALL =>
    obtain ⟨a, b, c, d, e, f, rfl⟩ := eq_six hlen
    exact (typed_pushes _).trans
      ((typed_delegatecall rfl rfl (h32 d (by simp)) (h32 f (by simp))).trans
      (and_congr (h64 a (by simp)) (h160 b (by simp))))
  | LOG n =>
    obtain ⟨a, b, topics, rfl⟩ := eq_two_more hlen
    exact iff_of_true ((typed_silent _).mpr (typed_log topics (h32 b (by simp)))) trivial
  | PUSH n | DUP n | SWAP n | UNDEFINED b => exact absurd h (Nat.not_succ_le_zero 3)
  | _ => exact absurd h (by decide)

/-- **One branch**: its requests obey the rules exactly when its operands fit. -/
theorem branch_typed_iff (isRuntime : Bool) (inst : Instruction)
    (hlen : args.length = inst.branchPops) (hw : ∀ v ∈ args, v.width ≠ .i1) :
    (branch isRuntime inst (args.map Value.operand)).Typed ↔ Fits inst args := by
  match args with
  | [] => exact branch_typed_nullary isRuntime hlen.symm
  | [a] => exact branch_typed_unary isRuntime hlen.symm (hw a (by simp))
  | [a, b] => exact branch_typed_binary isRuntime hlen.symm (hw b (by simp))
  | [a, b, c] =>
    exact branch_typed_ternary isRuntime hlen.symm (hw a (by simp)) (hw b (by simp))
      (hw c (by simp))
  | a :: b :: c :: d :: rest =>
    have hmany : 4 ≤ inst.branchPops := by
      rw [← hlen]
      exact Nat.le_add_left 4 rest.length
    exact branch_typed_many isRuntime hmany hlen hw

end Switch

/-! ## §5 — what a branch pushes. -/

namespace Emission

section ResultTypes

variable {a b c d e f g : Value}

theorem ty_arith : (arith a.operand b.operand).value.ty =
    .int (if a.width = b.width then a.width else .i256).bits := by
  unfold arith sameType
  by_cases h : a.width = b.width
  · simp [h]
  · simp [h, mt bits_inj.mp h]
    rfl

theorem ty_mul : (mul a.operand b.operand).value.ty =
    .int (if a.width = b.width then a.width else .i256).bits := by
  unfold mul
  by_cases h : a.width = b.width
  · simp [h]
  · simp [h, mt bits_inj.mp h]
    rfl

theorem ty_compare : (compare a.operand b.operand).value.ty = Ty.word := by
  simp [compare]

theorem ty_exp : (exp a.operand b.operand).value.ty = Ty.word := by
  unfold exp
  split <;> simp [funcExp]

theorem ty_afterCall (r outOff outSize : Operand) :
    (afterCall r outOff outSize).value.ty = Ty.word := by
  simp [afterCall]

theorem ty_pushCall (p : Func) : (pushCall p).value.ty = Ty.word := by
  simp [pushCall]

theorem ty_pushAddress (p : Func) (convert : Bool) :
    (pushAddress p convert).value.ty = Ty.word := by
  simp [pushAddress]

end ResultTypes

end Emission

section Pushed

open Emission

variable {inst : Instruction} {a b c : Value} {o : Operand}

theorem branch_ty_nullary (isRuntime : Bool) (h : inst.branchPops = 0) (hc : inst ≠ .CODESIZE)
    (ho : (branch isRuntime inst []).value = some o) : o.ty = .int (resultWidth inst []).bits := by
  cases inst with
  | GAS | GASLIMIT | CHAINID | BASEFEE | NUMBER | TIMESTAMP =>
    rw [← Option.some.inj ho]
    exact ty_pushCall _
  | ADDRESS | CALLER | ORIGIN | COINBASE =>
    rw [← Option.some.inj ho]
    exact ty_pushAddress _ _
  | DIFFICULTY | SELFBALANCE | GASPRICE | CALLVALUE | PC | MSIZE | CALLDATASIZE | RETURNDATASIZE =>
    rw [← Option.some.inj ho]
    rfl
  | CODESIZE => exact absurd rfl hc
  | LOG n => exact absurd h (Nat.ne_of_gt (Nat.add_pos_left Nat.two_pos n))
  | STOP | JUMPDEST | PUSH n | DUP n | SWAP n | UNDEFINED b => cases ho
  | _ => cases h

theorem branch_ty_unary (isRuntime : Bool) (h : inst.branchPops = 1)
    (ho : (branch isRuntime inst [a.operand]).value = some o) :
    o.ty = .int (resultWidth inst [a]).bits := by
  cases inst with
  | BLOCKHASH =>
    rw [← Option.some.inj ho]
    simp [blockhash]
    rfl
  | NOT | ISZERO | MLOAD | SLOAD | BALANCE | EXTCODESIZE | EXTCODEHASH | CALLDATALOAD =>
    rw [← Option.some.inj ho]
    rfl
  | POP | JUMP | SUICIDE => cases ho
  | LOG n => exact absurd h (Nat.ne_of_gt (Nat.lt_add_right n Nat.one_lt_two))
  | _ => cases h

/-- Only `SIGNEXTEND` needs its operands to fit: the type of its result is that of the word. -/
theorem branch_ty_binary (isRuntime : Bool) (h : inst.branchPops = 2) (hfit : Fits inst [a, b])
    (ho : (branch isRuntime inst [a.operand, b.operand]).value = some o) :
    o.ty = .int (resultWidth inst [a, b]).bits := by
  cases inst with
  | ADD | SUB | DIV | SDIV | MOD | SMOD | AND | OR | XOR =>
    rw [← Option.some.inj ho]
    exact ty_arith
  | MUL =>
    rw [← Option.some.inj ho]
    exact ty_mul
  | LT | GT | SLT | SGT | EQ =>
    rw [← Option.some.inj ho]
    exact ty_compare
  | EXP =>
    rw [← Option.some.inj ho]
    exact ty_exp
  | SIGNEXTEND =>
    rw [← Option.some.inj ho]
    show Ty.int b.width.bits = _
    rw [hfit.2]
    rfl
  | BYTE =>
    rw [← Option.some.inj ho]
    simp [byte]
    rfl
  | SHA3 =>
    rw [← Option.some.inj ho]
    simp [sha3, funcKeccak256]
    rfl
  | SHL | SHR | SAR =>
    rw [← Option.some.inj ho]
    rfl
  | JUMPI | RETURN | REVERT | MSTORE | MSTORE8 | SSTORE | LOG n => cases ho
  | _ => cases h

theorem branch_ty_ternary (isRuntime : Bool) (h : inst.branchPops = 3)
    (ho : (branch isRuntime inst [a.operand, b.operand, c.operand]).value = some o) :
    o.ty = .int (resultWidth inst [a, b, c]).bits := by
  cases inst with
  | ADDMOD | MULMOD =>
    rw [← Option.some.inj ho]
    rfl
  | CREATE =>
    rw [← Option.some.inj ho]
    simp [create]
    rfl
  | CALLDATACOPY | RETURNDATACOPY | CODECOPY | LOG n => cases ho
  | _ => cases h

variable {args : List Value}

theorem branch_ty_many (isRuntime : Bool) (h : 4 ≤ inst.branchPops)
    (hlen : args.length = inst.branchPops)
    (ho : (branch isRuntime inst (args.map Value.operand)).value = some o) :
    o.ty = .int (resultWidth inst args).bits := by
  cases inst with
  | CREATE2 =>
    obtain ⟨a, b, c, d, rfl⟩ := eq_four hlen
    rw [← Option.some.inj ho]
    simp [create2]
    rfl
  | CALL | CALLCODE =>
    obtain ⟨a, b, c, d, e, f, g, rfl⟩ := eq_seven hlen
    rw [← Option.some.inj ho]
    exact ty_afterCall _ f.operand g.operand
  | DELEGATECALL | STATICCALL =>
    obtain ⟨a, b, c, d, e, f, rfl⟩ := eq_six hlen
    rw [← Option.some.inj ho]
    exact ty_afterCall _ e.operand f.operand
  | EXTCODECOPY =>
    obtain ⟨a, b, c, d, rfl⟩ := eq_four hlen
    cases ho
  | LOG n =>
    obtain ⟨a, b, topics, rfl⟩ := eq_two_more hlen
    cases ho
  | PUSH n | DUP n | SWAP n | UNDEFINED b => exact absurd h (Nat.not_succ_le_zero 3)
  | _ => exact absurd h (by decide)

/-- **What a branch pushes** has the type that the opcode table gives it. -/
theorem branch_ty (isRuntime : Bool) (inst : Instruction) (hlen : args.length = inst.branchPops)
    (hfit : Fits inst args) (hc : inst ≠ .CODESIZE)
    (ho : (branch isRuntime inst (args.map Value.operand)).value = some o) :
    o.ty = .int (resultWidth inst args).bits := by
  match args with
  | [] => exact branch_ty_nullary isRuntime hlen.symm hc ho
  | [a] => exact branch_ty_unary isRuntime hlen.symm ho
  | [a, b] => exact branch_ty_binary isRuntime hlen.symm hfit ho
  | [a, b, c] => exact branch_ty_ternary isRuntime hlen.symm ho
  | a :: b :: c :: d :: rest =>
    have hmany : 4 ≤ inst.branchPops := by
      rw [← hlen]
      exact Nat.le_add_left 4 rest.length
    exact branch_ty_many isRuntime hmany hlen ho

end Pushed

end EvmTrans
