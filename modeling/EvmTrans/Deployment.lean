/-
# `EvmTrans.Deployment` — the runtime that a deployment installs, beside the one that is translated.

A creation bytecode installs what its `RETURN` reads from EVM memory; the translator takes
`code[k:]` for it. Here the EVM of `EvmTrans.Evm` gets a memory, and a run keeps the log of its
memory writes. A deployment that returns an untouched slice of its own code is translated as it is
installed when the slice starts with the first `PUSH1` behind `RETURNPC` and nothing follows it, and
among the slices that start at an instruction there it is so of no other. Appended constructor
arguments do follow it.
-/
import EvmTrans.Evm
import EvmTrans.Lib.LinearMemory
import EvmTrans.SplitCode

namespace EvmTrans

open Lib (beBytes ofBE read write InRange Apart length_read getElem_read)

variable {X : Type}

/-! ## §1 — an EVM with memory. -/

/-- Memory, the log of the writes to it (the newest first), call data, return data; `X` is the
rest. -/
structure EvmWorld (X : Type) where
  mem : Nat → Byte
  log : List (Nat × List Byte)
  input : List Byte
  returnData : List Byte
  host : X

/-- Everything that an opcode does outside memory, and the code of other accounts. -/
structure EvmHost (X : Type) where
  run : Instruction → List Word → EvmWorld X → Option (Word × List Byte × X)
  extCode : X → Word → List Byte

/-- `n` bytes of a string from `off` on, with zeros past its end. -/
def slice (bs : List Byte) (off n : Nat) : List Byte :=
  (List.range n).map fun j => bs.getD (off + j) 0

/-- The write to memory of an opcode, if it makes one; `none` outside the return data. -/
def evmWrite (H : EvmHost X) (code : List Byte) (w : EvmWorld X) :
    Instruction → List Word → Option (Option (Nat × List Byte))
  | .MSTORE, [a, v] => some (some (a.toNat, beBytes 32 v.toNat))
  | .MSTORE8, [a, v] => some (some (a.toNat, [v.setWidth 8]))
  | .CODECOPY, [d, s, n] => some (some (d.toNat, slice code s.toNat n.toNat))
  | .CALLDATACOPY, [d, s, n] => some (some (d.toNat, slice w.input s.toNat n.toNat))
  | .EXTCODECOPY, [a, d, s, n] => some (some (d.toNat, slice (H.extCode w.host a) s.toNat n.toNat))
  | .RETURNDATACOPY, [d, s, n] =>
    if s.toNat + n.toNat ≤ w.returnData.length then
      some (some (d.toNat, slice w.returnData s.toNat n.toNat))
    else none
  | .CALL, [_, _, _, _, _, d, n] => some (some (d.toNat, w.returnData.take n.toNat))
  | .CALLCODE, [_, _, _, _, _, d, n] => some (some (d.toNat, w.returnData.take n.toNat))
  | .DELEGATECALL, [_, _, _, _, d, n] => some (some (d.toNat, w.returnData.take n.toNat))
  | .STATICCALL, [_, _, _, _, d, n] => some (some (d.toNat, w.returnData.take n.toNat))
  | _, _ => some none

/-- The world after a write. -/
def EvmWorld.wrote (w : EvmWorld X) : Option (Nat × List Byte) → EvmWorld X
  | none => w
  | some (a, bs) => { w with mem := write w.mem a bs, log := (a, bs) :: w.log }

/-- What an opcode pushes: `MLOAD` a word of memory, all others what the host says. -/
def evmValue (w : EvmWorld X) (v : Word) : Instruction → List Word → Word
  | .MLOAD, [a] => BitVec.ofNat 256 (ofBE (read w.mem a.toNat 32))
  | _, _ => v

/-- An ordinary opcode: the host's part, then memory. -/
def evmExec (H : EvmHost X) (code : List Byte) (op : Instruction) (args : List Word)
    (w : EvmWorld X) : Option (Word × EvmWorld X) := do
  let (v, returnData, host) ← H.run op args w
  let w := { w with returnData := returnData, host := host }
  let wr ← evmWrite H code w op args
  return (evmValue w v op args, w.wrote wr)

/-- The opcodes of a creation run of `code`. -/
def evmOps (H : EvmHost X) (code : List Byte) : Ops (EvmWorld X) where
  exec := evmExec H code
  output := fun w off size => read w.mem off.toNat (size.toNat % 2 ^ 32)
  length_output := fun _ _ _ => length_read ..

/-- The state after `n` steps. -/
def evmRun {W : Type} (ops : Ops W) (code : List Byte) : Nat → EvmSt W → Option (EvmSt W)
  | 0, s => some s
  | n + 1, s =>
    match evmStep ops code s with
    | .next s' => evmRun ops code n s'
    | _ => none

/-- A fresh message: zero memory, nothing written. -/
def EvmWorld.fresh (input : List Byte) (host : X) : EvmWorld X where
  mem := fun _ => 0
  log := []
  input := input
  returnData := []
  host := host

/-! ## §2 — memory is what the log says. -/

/-- The byte that the newest write covering `a` put there; 0 where nothing was written. -/
def lastWritten : List (Nat × List Byte) → Nat → Byte
  | [], _ => 0
  | (d, bs) :: log, a => if d ≤ a ∧ a - d < bs.length then bs.getD (a - d) 0 else lastWritten log a

theorem write_eq_getD (m : Nat → Byte) (d a : Nat) (bs : List Byte) :
    write m d bs a = if d ≤ a ∧ a - d < bs.length then bs.getD (a - d) 0 else m a := by
  unfold write
  split
  · rename_i h
    rw [List.getD_eq_getElem?_getD, List.getElem?_eq_getElem h.2]
    rfl
  · rfl

/-- The memory and the log agree. -/
def EvmWorld.Logged (w : EvmWorld X) : Prop := ∀ a, w.mem a = lastWritten w.log a

theorem EvmWorld.Logged.wrote {w : EvmWorld X} (h : w.Logged) (wr : Option (Nat × List Byte)) :
    (w.wrote wr).Logged := by
  intro a
  cases wr with
  | none => exact h a
  | some r =>
    show write w.mem r.1 r.2 a = lastWritten (r :: w.log) a
    rw [write_eq_getD, lastWritten, h a]

theorem evmExec_logged {H : EvmHost X} {code : List Byte} {op : Instruction} {args : List Word}
    {w w' : EvmWorld X} {v : Word} (h : evmExec H code op args w = some (v, w')) (hw : w.Logged) :
    w'.Logged := by
  obtain ⟨⟨v₁, rd, x⟩, -, h⟩ := Option.bind_eq_some_iff.mp h
  obtain ⟨wr, -, h⟩ := Option.bind_eq_some_iff.mp h
  have hw₁ : ({ w with returnData := rd, host := x } : EvmWorld X).Logged := hw
  have hw' := (Prod.mk.inj (Option.some.inj h)).2
  rw [← hw']
  exact hw₁.wrote wr

/-- One step keeps memory and log together. -/
theorem evmStep_logged {H : EvmHost X} {code : List Byte} {s s' : EvmSt (EvmWorld X)}
    (h : evmStep (evmOps H code) code s = .next s') (hs : s.world.Logged) : s'.world.Logged := by
  cases evmStep_cases h with
  | ordinary hi hlen hx => exact evmExec_logged hx hs
  | _ => exact hs

/-- And so does a run. -/
theorem evmRun_logged {H : EvmHost X} {code : List Byte} : ∀ {n : Nat} {s s' : EvmSt (EvmWorld X)},
    evmRun (evmOps H code) code n s = some s' → s.world.Logged → s'.world.Logged := by
  intro n
  induction n with
  | zero => intro s s' h hs; cases h; exact hs
  | succ n ih =>
    intro s s' h hs
    unfold evmRun at h
    split at h
    · rename_i s₁ hstep
      exact ih h (evmStep_logged hstep hs)
    · cases h

theorem EvmWorld.fresh_logged (input : List Byte) (host : X) : (EvmWorld.fresh input host).Logged :=
  fun _ => rfl

/-! ## §3 — what a deployment returns. -/

/-- The bytes that the EVM's `RETURN` hands out. -/
def EvmWorld.returned (w : EvmWorld X) (off size : Word) : List Byte :=
  read w.mem off.toNat size.toNat

/-- **A run of the creation code that ends at the `RETURN` at `returnPC`**: it starts with an empty
stack and a fresh world, and `off` and `size` are the operands of that `RETURN`. -/
structure Deploys (H : EvmHost X) (code input : List Byte) (host : X) (returnPC : Nat)
    (s : EvmSt (EvmWorld X)) (off size : Word) : Prop where
  run : ∃ n, evmRun (evmOps H code) code n ⟨0, [], EvmWorld.fresh input host⟩ = some s
  atReturn : s.pc = returnPC
  operands : ∃ rest, s.stack = off :: size :: rest

/-- The machine halts there, with the bytes returned. The cut to 32 bits of `Ops.output` is the
translated `finish`'s, and no size that the EVM can pay for notices it. -/
theorem Deploys.halts {H : EvmHost X} {code input : List Byte} {host : X} {k pc : Nat}
    {s : EvmSt (EvmWorld X)} {off size : Word} (h : Deploys H code input host pc s off size)
    (hsplit : splitCode code = some (k, pc)) (hsize : size.toNat < 2 ^ 32) :
    evmStep (evmOps H code) code s = .halt (.finish (s.world.returned off size)) s.world := by
  obtain ⟨rest, hs⟩ := h.operands
  unfold evmStep
  rw [h.atReturn, (splitCode_spec hsplit).2.2.isReturn, hs]
  show EvmRes.halt (.finish (read s.world.mem off.toNat (size.toNat % 2 ^ 32))) _ = _
  rw [Nat.mod_eq_of_lt hsize]
  rfl

theorem Deploys.logged {H : EvmHost X} {code input : List Byte} {host : X} {pc : Nat}
    {s : EvmSt (EvmWorld X)} {off size : Word} (h : Deploys H code input host pc s off size) :
    s.world.Logged := by
  obtain ⟨n, hrun⟩ := h.run
  exact evmRun_logged hrun (EvmWorld.fresh_logged input host)

/-- The cut is the first `PUSH1` behind the instruction at `returnPC`. -/
theorem firstFrom_of_splitCode {code : List Byte} {k pc : Nat} (h : splitCode code = some (k, pc)) :
    FirstFrom code (.PUSH 1) (pc + 1) k := by
  obtain ⟨hb, hi, hfound⟩ := splitCode_spec h
  exact ⟨hb, hi, hfound.lt, fun q hq hlt hk => (hfound.quiet q hq hlt hk).1⟩

/-- A string is the tail of the code from `k` on when it has its length and its bytes. -/
theorem drop_eq_read_iff {code : List Byte} {k n a : Nat} {m : Nat → Byte} (hk : k ≤ code.length) :
    code.drop k = read m a n ↔ k + n = code.length ∧ ∀ j < n, m (a + j) = codeAt code (k + j) := by
  constructor
  · intro h
    have hlen := congrArg List.length h
    rw [List.length_drop, length_read] at hlen
    refine ⟨by omega, fun j hj => ?_⟩
    have hr : (read m a n)[j]? = some (m (a + j)) := by
      rw [List.getElem?_eq_getElem (by rw [length_read]; exact hj), getElem_read]
    rw [← h, List.getElem?_drop] at hr
    rw [codeAt, List.getD_eq_getElem?_getD, hr]
    rfl
  · rintro ⟨hlen, hbytes⟩
    refine List.ext_getElem (by rw [List.length_drop, length_read]; omega) fun j h₁ h₂ => ?_
    rw [length_read] at h₂
    rw [getElem_read, hbytes j h₂, codeAt, List.getElem_drop, List.getD_eq_getElem?_getD,
      List.getElem?_eq_getElem (by omega)]
    rfl

/-- A write that is apart from the range does not count for it. -/
theorem lastWritten_append_apart {later earlier : List (Nat × List Byte)} {a n i : Nat}
    (h : ∀ r ∈ later, Apart r.1 r.2.length a n) (hi : InRange a n i) :
    lastWritten (later ++ earlier) i = lastWritten earlier i := by
  induction later with
  | nil => rfl
  | cons r later ih =>
    have hr := h r List.mem_cons_self
    rw [List.cons_append, lastWritten, if_neg]
    · exact ih fun r' hr' => h r' (List.mem_cons_of_mem _ hr')
    · rintro ⟨h1, h2⟩
      obtain ⟨h3, h4⟩ := hi
      rcases hr with hr | hr <;> omega

/-- **The returned bytes are an untouched slice of the code**, from `q` on: one write covers them
all, it put the code's bytes there, and no later one comes near. -/
def UntouchedSlice (code : List Byte) (log : List (Nat × List Byte)) (off size q : Nat) : Prop :=
  ∃ later earlier d p n, log = later ++ (d, slice code p n) :: earlier ∧
    (∀ r ∈ later, Apart r.1 r.2.length off size) ∧ d ≤ off ∧ off + size ≤ d + n ∧ q = p + (off - d)

/-- Inside it the log holds the code's bytes. -/
theorem UntouchedSlice.lastWritten_eq {code : List Byte} {log : List (Nat × List Byte)}
    {off size q i : Nat} (h : UntouchedSlice code log off size q) (hi : i < size) :
    lastWritten log (off + i) = codeAt code (q + i) := by
  obtain ⟨later, earlier, d, p, n, rfl, hlater, hd, hend, rfl⟩ := h
  rw [lastWritten_append_apart hlater ⟨Nat.le_add_right off i, Nat.add_lt_add_left hi off⟩,
    lastWritten, if_pos]
  · rw [slice, List.getD_eq_getElem?_getD, List.getElem?_map, List.getElem?_range (by omega)]
    show code.getD (p + (off + i - d)) 0 = code.getD (p + (off - d) + i) 0
    congr 1
    omega
  · simp only [slice, List.length_map, List.length_range]
    omega

/-! ## §4 — the runtime that is translated. -/

/-- The two byte strings are one when the log has the tail of the code from the split point on. -/
theorem runtimerBytecode_eq_iff {code : List Byte} {k pc : Nat} {w : EvmWorld X} {off size : Word}
    (hsplit : splitCode code = some (k, pc)) (hw : w.Logged) :
    runtimerBytecode code = some (w.returned off size) ↔ k + size.toNat = code.length ∧
      ∀ j < size.toNat, lastWritten w.log (off.toNat + j) = codeAt code (k + j) := by
  have hk := (firstFrom_of_splitCode hsplit).boundary.1
  rw [runtimerBytecode, hsplit, Option.map_some, Option.some_inj, EvmWorld.returned,
    drop_eq_read_iff hk.le]
  simp only [hw _]

/-- A slice of the code that starts at an instruction behind `RETURNPC` and that is the tail from
the split point on starts AT the split point: it cannot be longer than the tail of where it starts,
and before the split point no instruction begins with the byte `0x60`. -/
theorem slice_start_eq {code : List Byte} {k pc p n : Nat} (hsplit : splitCode code = some (k, pc))
    (hb : Boundary code p) (hlt : pc < p) (hend : p + n ≤ code.length) (hlen : k + n = code.length)
    (hbytes : ∀ j < n, codeAt code (p + j) = codeAt code (k + j)) : p = k := by
  have hfirst := firstFrom_of_splitCode hsplit
  have hk := hfirst.boundary.1
  have hle : p ≤ k := by omega
  rcases Nat.lt_or_eq_of_le hle with hpk | hpk
  · -- the first bytes agree, so there is a `PUSH1` at `p` already
    have h0 := hbytes 0 (by omega)
    rw [Nat.add_zero, Nat.add_zero] at h0
    have hpush : instAt code p = .PUSH 1 := by
      rw [instAt, h0]
      exact hfirst.isInst
    exact absurd hpush (hfirst.first p hb hlt hpk)
  · exact hpk

/-- **The runtime that is translated, beside the one that the deployment installs.** They are one
string in every run that returns an untouched slice of the creation code which starts with the first
`PUSH1` behind `RETURNPC` and which nothing follows. In no run are they one when `RETURN` asks for
another number of bytes than stand from that `PUSH1` to the END of the code. And a run that returns
an untouched slice from an instruction behind `RETURNPC` on returns what is translated only when the
slice is that one. -/
theorem runtime_translated_iff {H : EvmHost X} {code input : List Byte} {host : X} {k pc : Nat}
    {s : EvmSt (EvmWorld X)} {off size : Word} (hsplit : splitCode code = some (k, pc))
    (hdep : Deploys H code input host pc s off size) :
    (∀ q, UntouchedSlice code s.world.log off.toNat size.toNat q →
      FirstFrom code (.PUSH 1) (pc + 1) q →
      q + size.toNat = code.length → runtimerBytecode code = some (s.world.returned off size)) ∧
    (runtimerBytecode code = some (s.world.returned off size) →
      ∃ p, FirstFrom code (.PUSH 1) (pc + 1) p ∧ p + size.toNat = code.length) ∧
    ∀ q, UntouchedSlice code s.world.log off.toNat size.toNat q → Boundary code q → pc < q →
      q + size.toNat ≤ code.length →
      (runtimerBytecode code = some (s.world.returned off size) ↔
        FirstFrom code (.PUSH 1) (pc + 1) q ∧ q + size.toNat = code.length) := by
  have hfirst := firstFrom_of_splitCode hsplit
  have heq : runtimerBytecode code = some (s.world.returned off size) ↔ _ :=
    runtimerBytecode_eq_iff hsplit hdep.logged
  have hsuff : ∀ q, UntouchedSlice code s.world.log off.toNat size.toNat q →
      FirstFrom code (.PUSH 1) (pc + 1) q → q + size.toNat = code.length →
      runtimerBytecode code = some (s.world.returned off size) := by
    intro q hslice hq hlen
    obtain rfl := hq.unique hfirst
    exact heq.mpr ⟨hlen, fun j hj => hslice.lastWritten_eq hj⟩
  refine ⟨hsuff, fun h => ⟨k, hfirst, (heq.mp h).1⟩, fun q hslice hb hlt hend => ⟨fun h => ?_, ?_⟩⟩
  · obtain ⟨hlen, hbytes⟩ := heq.mp h
    have hstart : q = k := slice_start_eq hsplit hb hlt hend hlen fun j hj => by
      rw [← hslice.lastWritten_eq hj, hbytes j hj]
    subst hstart
    exact ⟨hfirst, hlen⟩
  · rintro ⟨hq, hlen⟩
    exact hsuff q hslice hq hlen

/-- A host that answers 0 and leaves everything as it is. -/
def idleHost : EvmHost Unit where
  run := fun _ _ w => some (0, w.returnData, ())
  extCode := fun _ _ => []

/-- Installs its last three bytes (`PUSH1 2a STOP`): `PUSH1 3 PUSH1 d PUSH1 0 CODECOPY PUSH1 3 PUSH1
0 RETURN INVALID`, then the runtime. -/
def storeCreation : List Byte :=
  [0x60, 0x03, 0x60, 0x0d, 0x60, 0x00, 0x39, 0x60, 0x03, 0x60, 0x00, 0xf3, 0xfe, 0x60, 0x2a, 0x00]

/-- The same with the constructor argument 16 behind it. -/
def storeCreationWithArgument : List Byte := storeCreation ++ beBytes 32 16

/-- The state in front of `RETURN`. -/
def atDeployReturn (code : List Byte) : Option (EvmSt (EvmWorld Unit)) :=
  evmRun (evmOps idleHost code) code 6 ⟨0, [], EvmWorld.fresh [] ()⟩

/-- The run of six steps ends in front of the `RETURN`. -/
theorem exists_deploys {code : List Byte} {pc : Nat} {log : List (Nat × List Byte)}
    (h : (atDeployReturn code).map (fun s => (s.pc, s.stack, s.world.log)) =
      some (pc, [0, 3], log)) :
    ∃ s, Deploys idleHost code [] () pc s 0 3 ∧ s.world.log = log := by
  obtain ⟨s, hrun, hs⟩ := Option.map_eq_some_iff.mp h
  obtain ⟨hpc, hrest⟩ := Prod.mk.inj hs
  obtain ⟨hstack, hlog⟩ := Prod.mk.inj hrest
  exact ⟨s, ⟨⟨6, hrun⟩, hpc, ⟨[], hstack⟩⟩, hlog⟩

/-- The plain deployment is translated as it is installed. -/
theorem runtime_translated_iff_storeCreation : ∃ s, Deploys idleHost storeCreation [] () 11 s 0 3 ∧
    runtimerBytecode storeCreation = some (s.world.returned 0 3) := by
  have hsplit : splitCode storeCreation = some (13, 11) := by decide +kernel
  obtain ⟨s, hdep, hlog⟩ : ∃ s, Deploys idleHost storeCreation [] () 11 s 0 3 ∧
      s.world.log = [] ++ (0, slice storeCreation 13 3) :: [] := exists_deploys (by decide +kernel)
  have hslice : UntouchedSlice storeCreation s.world.log 0 3 13 :=
    ⟨[], [], 0, 13, 3, hlog, nofun, le_rfl, le_rfl, rfl⟩
  obtain ⟨-, -, hiff⟩ := runtime_translated_iff hsplit hdep
  exact ⟨s, hdep, (hiff 13 hslice (splitCode_spec hsplit).1 (by decide) (by decide)).mpr
    ⟨firstFrom_of_splitCode hsplit, by decide⟩⟩

/-- **With the constructor argument appended, the argument is translated as part of the
runtime.** -/
theorem runtime_keeps_argument :
    ¬ ∀ (H : EvmHost Unit) (code input : List Byte) (host : Unit) (k pc : Nat)
      (s : EvmSt (EvmWorld Unit)) (off size : Word), splitCode code = some (k, pc) →
      Deploys H code input host pc s off size →
      runtimerBytecode code = some (s.world.returned off size) := by
  intro hall
  have hsplit : splitCode storeCreationWithArgument = some (13, 11) := by decide +kernel
  obtain ⟨s, hdep, -⟩ : ∃ s, Deploys idleHost storeCreationWithArgument [] () 11 s 0 3 ∧
      s.world.log = [(0, slice storeCreationWithArgument 13 3)] :=
    exists_deploys (by decide +kernel)
  have h := hall idleHost _ [] () 13 11 s 0 3 hsplit hdep
  -- 35 bytes against 3
  rw [runtimerBytecode, hsplit, Option.map_some, Option.some_inj] at h
  have hlen := congrArg List.length h
  rw [EvmWorld.returned, length_read] at hlen
  exact absurd hlen (by decide +kernel)

end EvmTrans
