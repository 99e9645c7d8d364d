import EvmTrans.Lib.Bytes
import EvmTrans.Instruction
import EvmTrans.BasicBlock
import EvmTrans.BlockPartition
import EvmTrans.IR
import EvmTrans.GlobalStack
import EvmTrans.Lib.Loop
import EvmTrans.DryRun
import EvmTrans.CompileBasicBlock
import EvmTrans.CompileMain
import EvmTrans.CompileShape
import EvmTrans.BlockShape
import EvmTrans.EmittedFunction
import EvmTrans.JumpResolution
import EvmTrans.Evm
import EvmTrans.StackRep
import EvmTrans.BlockTrace
import EvmTrans.BlockSim
import EvmTrans.CallSim
import EvmTrans.JumpTarget
import EvmTrans.StackRefinement
import EvmTrans.ControlFlow
import EvmTrans.Endian
import EvmTrans.Lib.LinearMemory
import EvmTrans.Arith
import EvmTrans.Eei
import EvmTrans.AddressBoundary
import EvmTrans.WordBoundary
import EvmTrans.MemoryLayout
import EvmTrans.Deployment
import EvmTrans.Lib.LongDivision
import EvmTrans.UDivRem
import EvmTrans.SDivRem
import EvmTrans.Lib.Schoolbook
import EvmTrans.MulHalves
import EvmTrans.Exp
import EvmTrans.WordOpcodes
import EvmTrans.ByteMemory
import EvmTrans.HostCopies
import EvmTrans.OpcodeRequests
import EvmTrans.OpcodeTypes
import EvmTrans.EmittedTypes
import EvmTrans.WordRegisters
import EvmTrans.CodeMap
import EvmTrans.MainFunction
import EvmTrans.ReentrancyPass
import EvmTrans.Lib.Transition
import EvmTrans.ReentrancyMutex
import EvmTrans.ReentrancyTransparent
import EvmTrans.CommandLine
import EvmTrans.BlockHalts
import EvmTrans.StackBound
import EvmTrans.RunsAlike
import EvmTrans.RunOffEnd
import EvmTrans.Lib.Dominance
import EvmTrans.SsaForm
import EvmTrans.Lib.Worklist
import EvmTrans.ReentrancySearch
import EvmTrans.SafeMath
import EvmTrans.SafeMathPass
import EvmTrans.DryRunAccuracy
import EvmTrans.DryRunEdges
import EvmTrans.MemorySize
import EvmTrans.CalldataCopyPass
import EvmTrans.SelectorLoad
import EvmTrans.LowerEVM
import EvmTrans.WideArithmetic
import EvmTrans.ResultTags
import EvmTrans.SplitCode
import EvmTrans.Lib.Pass
import EvmTrans.Decoders
import EvmTrans.Memcpy
import EvmTrans.CurrentMessage
import EvmTrans.Lib.Heights
import EvmTrans.StackInputs
import EvmTrans.StackModes
import EvmTrans.Lib.SmtTerm
import EvmTrans.SymMemory
import EvmTrans.SymExec
import EvmTrans.SymExplore
import EvmTrans.Lib.Frozen
import EvmTrans.Lib.Program
import EvmTrans.Hera.Interface
import EvmTrans.Hera.MemoryOps
import EvmTrans.Hera.Methods
import EvmTrans.Hera.Effects
import EvmTrans.Hera.Calls
import EvmTrans.Hera.Execute
import EvmTrans.Hera.CallStack
import EvmTrans.Hera.Moves
import EvmTrans.Hera.Clients
import EvmTrans.Hera.StaticMode
import EvmTrans.Hera.GasLedger
import EvmTrans.Hera.CallDepth
import EvmTrans.Hera.Creations
import EvmTrans.Hera.Boundary
import EvmTrans.WordArithmetic
import EvmTrans.AnyEnvironment
import EvmTrans.RollbackPass
import EvmTrans.VulSendPass
