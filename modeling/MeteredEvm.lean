import MeteredEvm.Word
import MeteredEvm.Bytes
import MeteredEvm.Hex
import MeteredEvm.Keccak
import MeteredEvm.Blake3
import MeteredEvm.Fault
import MeteredEvm.Stack
import MeteredEvm.Fork
import MeteredEvm.Gas.Meter
import MeteredEvm.Gas.Schedule
import MeteredEvm.Memory
import MeteredEvm.Opcode
import MeteredEvm.InstructionSet
import MeteredEvm.Code.Decode
import MeteredEvm.Code.Instruction
import MeteredEvm.Code.Block
import MeteredEvm.Code.Analysis
import MeteredEvm.Code.Listing
import MeteredEvm.Code.Cache
import MeteredEvm.Json
import MeteredEvm.Config
import MeteredEvm.Environment
import MeteredEvm.ContractAddress
import MeteredEvm.Host.Basic
import MeteredEvm.Machine
import MeteredEvm.Effect.Words
import MeteredEvm.Effect.Data
import MeteredEvm.Effect.State
import MeteredEvm.Effect.Call
import MeteredEvm.Effect.Control
import MeteredEvm.Step
import MeteredEvm.Run
import MeteredEvm.Frame
import MeteredEvm.Host.Recorded
import MeteredEvm.Host.Warm
import MeteredEvm.Host.Scripted
import MeteredEvm.World.Basic
import MeteredEvm.World.Call
import MeteredEvm.World.Transaction
import MeteredEvm.Proofs.Typing
import MeteredEvm.Proofs.Effects
import MeteredEvm.Proofs.Blocks
import MeteredEvm.Proofs.Stream
import MeteredEvm.Proofs.Turn
import MeteredEvm.Proofs.StackSafety
import MeteredEvm.Proofs.Observers
import MeteredEvm.Proofs.Conservation
import MeteredEvm.Proofs.CallTree
import MeteredEvm.Proofs.Plain
import MeteredEvm.Proofs.BlockMetering
import MeteredEvm.Proofs.Views
import MeteredEvm.Proofs.Parallel
import MeteredEvm.Proofs.LinkedRuns
import MeteredEvm.Proofs.Launch
import MeteredEvm.Proofs.Noninterference
import MeteredEvm.Proofs.StaticFrames
import MeteredEvm.Proofs.Balances
import MeteredEvm.Proofs.Value
import MeteredEvm.Proofs.FaithfulDecoding
import MeteredEvm.Proofs.Rollback
import MeteredEvm.Proofs.Sessions
import MeteredEvm.Proofs.CachedAnalyses
import MeteredEvm.Proofs.Segments
import MeteredEvm.Proofs.BlockSummaries
import MeteredEvm.Proofs.JumpDestinations
import MeteredEvm.Proofs.ControlFlow
import MeteredEvm.Proofs.NetPricing
import MeteredEvm.Proofs.GasThreshold
import MeteredEvm.Proofs.DepthLimit
import MeteredEvm.Proofs.RangeSafety
import MeteredEvm.Proofs.WordArithmetic
import MeteredEvm.Proofs.AddressPreimages
import MeteredEvm.Proofs.Dust
import MeteredEvm.Proofs.Copies
import MeteredEvm.Proofs.StackAsList
import MeteredEvm.Proofs.MemoryPricing
import MeteredEvm.Proofs.EnvironmentText
