/-
# `EvmTrans.CommandLine` — from the command line of `standalone-evmtrans` to the passes that
`prepare` runs.

`main` copies the option variables into the record `options` BEFORE it calls
`cl::ParseCommandLineOptions`, and writes `isRtcode : false` into it; `prepare` adds a hardening
pass only when `isRtcode` and the option are set. Either of the two keeps every hardening pass out
of the runtime module, whatever the command line says. `requested_hardening_iff` is the consequence:
the runtime module is the one asked for exactly when no hardening was asked for.

A command line is the list of its options; LLVM's own parsing of the strings is not modelled, except
that an option given twice is an error.
-/
import EvmTrans.SplitCode
import EvmTrans.ReentrancyPass

namespace EvmTrans

open Llvm (Cfg detectBug callOperands)

/-! ## §1 — options. -/

/-- The `cl::opt<bool>` variables. -/
inductive Switch where
  | debug | dump | checkReentrancy | detectSuicide | checkSend | EOAonly | rmOrigin | useSafeMath
  | enableUpgrade | onlyRt | runtimeInput
  deriving DecidableEq, Repr

/-- An option on the command line. A switch alone has the value `true`; `--check-send=false` has
`false`. -/
inductive Arg where
  | switch (name : Switch) (value : Bool)
  | vulPC (n : Int)
  | enableKlee (n : Int)
  | output (file : String)
  | input (file : String)
  deriving DecidableEq, Repr

/-- Which option it is. -/
inductive Opt where
  | switch (name : Switch)
  | vulPC | enableKlee | output | input
  deriving DecidableEq, Repr

@[inherit_doc Opt]
def Arg.opt : Arg → Opt
  | .switch name _ => .switch name
  | .vulPC _ => .vulPC
  | .enableKlee _ => .enableKlee
  | .output _ => .output
  | .input _ => .input

/-- The option variables. -/
structure Globals where
  switches : Switch → Bool
  g_vulpc : Int
  g_enableKlee : Int
  OutputFilename : String
  InputFilename : String

/-- Their values when `main` starts. -/
def Globals.init : Globals where
  switches := fun _ => false
  g_vulpc := 0
  g_enableKlee := 0
  OutputFilename := "-"
  InputFilename := "-"

/-- The effect of one option. -/
def Globals.set (g : Globals) : Arg → Globals
  | .switch name value => { g with switches := Function.update g.switches name value }
  | .vulPC n => { g with g_vulpc := n }
  | .enableKlee n => { g with g_enableKlee := n }
  | .output file => { g with OutputFilename := file }
  | .input file => { g with InputFilename := file }

/-- `cl::ParseCommandLineOptions`; `none` is the exit on an option that occurs twice. -/
def parseCommandLineOptions (args : List Arg) (g : Globals) : Option Globals :=
  if (args.map Arg.opt).Nodup then some (args.foldl Globals.set g) else none

/-- `dev::eth::trans::Options`. -/
structure Options where
  enableCheckReentrancy : Bool
  enableDetectSuicide : Bool
  enableCheckSend : Bool
  enableEOAonly : Bool
  enableRmOrigin : Bool
  enableSafeMath : Bool
  isRtcode : Bool
  enableUpgrade : Bool
  vulpc : Int
  enableKlee : Bool

/-- The record that `main` makes of the option variables. -/
def makeOptions (g : Globals) : Options where
  enableCheckReentrancy := g.switches .checkReentrancy
  enableDetectSuicide := g.switches .detectSuicide
  enableCheckSend := g.switches .checkSend
  enableEOAonly := g.switches .EOAonly
  enableRmOrigin := g.switches .rmOrigin
  enableSafeMath := g.switches .useSafeMath
  isRtcode := false
  enableUpgrade := g.switches .enableUpgrade
  vulpc := g.g_vulpc
  enableKlee := g.g_enableKlee != 0

/-! ## §2 — passes. -/

/-- The passes that `prepare` knows. -/
inductive Pass where
  | klee
  | estimateReenrance
  | detectSuicide
  | estimateRollback
  | estimateVulSend (vulpc : Int)
  | estimateOrigin (vulpc : Int)
  | useSafeMath (vulpc : Int)
  | proxyWrapper
  | calldataCopy
  | lowerEVM
  | reassociate
  | cfgSimplification
  | deadCodeElimination
  | functionInlining (optLevel sizeOptLevel : Nat) (disableInlineHotCallSite : Bool)
  | aggressiveDCE
  | promoteMemoryToRegister
  deriving DecidableEq, Repr

/-- `if (cond) pm.add(pass)`. -/
def addIf (cond : Bool) (pass : Pass) : List Pass := if cond then [pass] else []

/-- The passes that `prepare` adds whatever the options are. -/
def commonPasses : List Pass :=
  [.lowerEVM, .reassociate, .cfgSimplification, .deadCodeElimination, .reassociate,
    .functionInlining 2 2 false, .aggressiveDCE, .promoteMemoryToRegister]

/-- `prepare`: the passes of its pass manager, in their order. -/
def prepare (options : Options) : List Pass :=
  addIf (options.isRtcode && options.enableKlee) .klee ++
  addIf (options.isRtcode && options.enableCheckReentrancy) .estimateReenrance ++
  addIf (options.isRtcode && options.enableDetectSuicide) .detectSuicide ++
  addIf (options.isRtcode && options.enableEOAonly) .estimateRollback ++
  addIf (options.isRtcode && options.enableCheckSend) (.estimateVulSend options.vulpc) ++
  addIf (options.isRtcode && options.enableRmOrigin) (.estimateOrigin options.vulpc) ++
  addIf (options.isRtcode && options.enableSafeMath) (.useSafeMath options.vulpc) ++
  addIf (!options.isRtcode && options.enableUpgrade) .proxyWrapper ++
  addIf options.isRtcode .calldataCopy ++ commonPasses

/-! ## §3 — `main`. -/

/-- A module: the function that `compileMain` made, and the passes that `pm.run` has run over it. -/
structure PreparedModule where
  main : List IRBlock
  passes : List Pass

/-- What `main` hands to `codeGenModule`: the runtime module, and the deployer, if it comes to
that. -/
structure ToolOutput where
  runtime : PreparedModule
  deployer : Option PreparedModule

/-- `main`, up to the files it writes; an error is its exit code. `codeGen` is `codeGenModule`,
`fold` the IR builder's folder. -/
def toolMain (fold : CompileEnv) (codeGen : PreparedModule → List Byte)
    (getFile : String → Option (List Byte)) (args : List Arg) : Except Int ToolOutput := do
  -- the record is made of the variables as they are NOW
  let options := makeOptions Globals.init
  let some g := parseCommandLineOptions args Globals.init | throw 1
  let some code := getFile g.InputFilename | throw 1
  let some (splitPoint, returnPC) :=
    (if g.switches .runtimeInput then some (0, 0) else splitCode code)
    | throw (-1)
  let runtimer := code.drop splitPoint
  let runtime : PreparedModule :=
    ⟨compileMain { fold with bytecode := runtimer, retPC := 0, rtWasmCode := [] } runtimer,
      prepare options⟩
  if g.switches .runtimeInput || g.switches .onlyRt then return ⟨runtime, none⟩
  let deployer : PreparedModule :=
    ⟨compileMain { fold with bytecode := code, retPC := returnPC, rtWasmCode := codeGen runtime }
      (code.take splitPoint), prepare options⟩
  return ⟨runtime, some deployer⟩

/-! ## §4 — the request, and what becomes of it. -/

/-- A switch is on the command line. -/
def given (args : List Arg) (name : Switch) : Bool := decide (.switch name true ∈ args)

/-- The switches that ask for a hardening pass. -/
def hardeningSwitches : List Switch :=
  [.checkReentrancy, .detectSuicide, .EOAonly, .checkSend, .rmOrigin, .useSafeMath]

/-- The pass that a switch asks for. -/
def Switch.pass (vulpc : Int) : Switch → Option Pass
  | .checkReentrancy => some .estimateReenrance
  | .detectSuicide => some .detectSuicide
  | .EOAonly => some .estimateRollback
  | .checkSend => some (.estimateVulSend vulpc)
  | .rmOrigin => some (.estimateOrigin vulpc)
  | .useSafeMath => some (.useSafeMath vulpc)
  | _ => none

/-- **The hardening passes that a command line asks for**, in the order of `prepare`. -/
def requestedPasses (args : List Arg) : List Pass :=
  (hardeningSwitches.filter (given args)).filterMap
    (Switch.pass (args.foldl Globals.set .init).g_vulpc)

/-- The calls of an instruction of the skeleton that `detectBug` and the rewriting look at; the
other instructions emitted for it match none of their patterns. -/
def Instr.hostCalls : Instr → List (List String)
  | .opcode _ .CALL _ => [callOperands 5 "ethereum.call"]
  | .opcode _ .SSTORE _ => [callOperands 2 "ethereum.storageStore"]
  | .finish _ _ | .finishData _ => [callOperands 2 "ethereum.finish"]
  | .revert _ _ => [callOperands 2 "ethereum.revert"]
  | .selfDestruct _ => [callOperands 1 "ethereum.selfDestruct"]
  | _ => []

/-- The control flow graph of a compiled `main`; its first block is the entry. -/
def mainCfg (blocks : List IRBlock) : Cfg Label where
  operands b := (blockOf b).toList.flatMap fun bl => bl.code.flatMap Instr.hostCalls
  succs b := ((blockOf b).bind IRBlock.term).toList.flatMap fun t =>
    t.successors.filter (· ∈ blocks.tail.map IRBlock.label)
  body := blocks.tail.map IRBlock.label
  succs_mem b c h := by
    obtain ⟨t, -, hc⟩ := List.mem_flatMap.mp h
    exact of_decide_eq_true (List.mem_filter.mp hc).2
where
  /-- The block under a label. -/
  blockOf : Option Label → Option IRBlock
    | none => blocks.head?
    | some l => blocks.find? fun bl => bl.label = l

/-- The mutex guard stands at the start of the emitted `main`: the pass that puts it there has run
over it, and found what it looks for. -/
def PreparedModule.StartsWithGuard (m : PreparedModule) : Prop :=
  .estimateReenrance ∈ m.passes ∧ detectBug (mainCfg m.main) = true

/-- **The guard is the mutex of `EstimateReenrancePass`**: what the pass makes of a `main` with the
blocks of the module and the same calls of `call` and `storageStore` in them, whatever its other
instructions are. -/
theorem startsWithGuard_iff {L : Type} {m : PreparedModule}
    {f : Llvm.Function (Llvm.Instr L) L Label}
    (hcalls : f.cfg.patterns = (mainCfg m.main).patterns) :
    m.StartsWithGuard ↔
      .estimateReenrance ∈ m.passes ∧ (Llvm.runOnFunction "main" f).function =
        .inr (Llvm.insertMutex f) := by
  have hbug : detectBug f.cfg = detectBug (mainCfg m.main) := by
    rw [← Llvm.detectBug_patterns f.cfg, hcalls, Llvm.detectBug_patterns]
  unfold PreparedModule.StartsWithGuard
  rw [Llvm.runOnFunction_main, hbug]
  refine and_congr_right fun _ => ⟨fun h => if_pos h, fun h => ?_⟩
  by_contra hnot
  rw [if_neg hnot] at h
  cases h

/-- **What the command line asks of the runtime module.** -/
structure Hardened (args : List Arg) (m : PreparedModule) : Prop where
  passes : m.passes = requestedPasses args ++ commonPasses
  mutex : given args .checkReentrancy = true → detectBug (mainCfg m.main) = true → m.StartsWithGuard

/-- The runtime module has seen the common passes and no others. -/
theorem runtime_passes {fold : CompileEnv} {codeGen : PreparedModule → List Byte}
    {getFile : String → Option (List Byte)} {args : List Arg} {out : ToolOutput}
    (h : toolMain fold codeGen getFile args = .ok out) : out.runtime.passes = commonPasses := by
  have hprepare : prepare (makeOptions Globals.init) = commonPasses := by decide
  unfold toolMain at h
  split at h
  case h_2 => cases h
  split at h
  case h_2 => cases h
  split at h
  case h_2 => cases h
  split at h <;> cases h <;> exact hprepare

theorem requestedPasses_eq_nil_iff (args : List Arg) :
    requestedPasses args = [] ↔ ∀ name ∈ hardeningSwitches, .switch name true ∉ args := by
  have hpass : ∀ name ∈ hardeningSwitches, ∀ vulpc, (name.pass vulpc).isSome = true := by
    intro name hname vulpc
    simp only [hardeningSwitches, List.mem_cons, List.not_mem_nil, or_false] at hname
    rcases hname with rfl | rfl | rfl | rfl | rfl | rfl <;> rfl
  rw [requestedPasses, List.filterMap_eq_nil_iff]
  constructor
  · intro h name hname hmem
    have hnone := h name (List.mem_filter.mpr ⟨hname, decide_eq_true hmem⟩)
    have hsome := hpass name hname (args.foldl Globals.set .init).g_vulpc
    rw [hnone] at hsome
    cases hsome
  · intro h name hname
    obtain ⟨hmem, hgiven⟩ := List.mem_filter.mp hname
    exact absurd (of_decide_eq_true hgiven) (h name hmem)

/-- **Requested hardening reaches the runtime module exactly when none is requested**, for every
input file and every command line on which the tool comes to `codeGenModule`. -/
theorem requested_hardening_iff {fold : CompileEnv} {codeGen : PreparedModule → List Byte}
    {getFile : String → Option (List Byte)} {args : List Arg} {out : ToolOutput}
    (h : toolMain fold codeGen getFile args = .ok out) :
    Hardened args out.runtime ↔ ∀ name ∈ hardeningSwitches, .switch name true ∉ args := by
  have hpasses := runtime_passes h
  rw [← requestedPasses_eq_nil_iff]
  constructor
  · intro hhard
    have happ := hpasses.symm.trans hhard.passes
    exact List.append_left_eq_self.mp happ.symm
  · intro hnil
    refine ⟨by rw [hpasses, hnil, List.nil_append], fun hgiven _ => ?_⟩
    have hnot := (requestedPasses_eq_nil_iff args).mp hnil .checkReentrancy (by decide)
    exact absurd (of_decide_eq_true hgiven) hnot

/-- Runtime code that calls, and writes storage afterwards. -/
def callThenStore : List Byte :=
  [0x60, 0, 0x60, 0, 0x60, 0, 0x60, 0, 0x60, 0, 0x60, 0, 0x60, 0, 0xf1, 0x60, 7, 0x55, 0x00]

/-- The runtime module that the tool makes of `callThenStore`. -/
def callThenStoreModule : PreparedModule :=
  ⟨compileMain (plainEnv callThenStore) callThenStore, prepare (makeOptions .init)⟩

/-- The tool without a hardening switch. -/
theorem requested_hardening_iff_none :
    Hardened [.switch .runtimeInput true, .input "a.bin"] callThenStoreModule :=
  (@requested_hardening_iff (plainEnv []) (fun _ => []) (fun _ => some callThenStore)
    [.switch .runtimeInput true, .input "a.bin"] ⟨callThenStoreModule, none⟩ rfl).mpr (by decide)

/-- **`--check-reentrancy` on code with a call and a later store**: no guard is put in. -/
theorem check_reentrancy_ignored :
    toolMain (plainEnv []) (fun _ => []) (fun _ => some callThenStore)
      [.switch .checkReentrancy true, .switch .runtimeInput true, .input "a.bin"] =
      .ok ⟨callThenStoreModule, none⟩ ∧
    detectBug (mainCfg callThenStoreModule.main) = true ∧
    ¬ callThenStoreModule.StartsWithGuard ∧
    ¬ Hardened [.switch .checkReentrancy true, .switch .runtimeInput true, .input "a.bin"]
      callThenStoreModule := by
  have hbug : detectBug (mainCfg callThenStoreModule.main) = true := by decide +kernel
  have hguard : ¬ callThenStoreModule.StartsWithGuard := by
    rintro ⟨hmem, -⟩
    exact absurd hmem (by decide)
  exact ⟨rfl, hbug, hguard, fun h => hguard (h.mutex (by decide) hbug)⟩

end EvmTrans
