import LuaMachine.Arithmetic
import LuaMachine.Builtin
import LuaMachine.Chunk.Layout
import LuaMachine.Chunk.Reader
import LuaMachine.Chunk.Writer
import LuaMachine.CommandLine.Basic
import LuaMachine.CommandLine.FileTree
import LuaMachine.CommandLine.Listing
import LuaMachine.Error
import LuaMachine.External
import LuaMachine.Instruction.Basic
import LuaMachine.Instruction.Opcode
import LuaMachine.Instruction.Size
import LuaMachine.Json.Access
import LuaMachine.Json.Basic
import LuaMachine.Json.Bridge
import LuaMachine.Json.Reader
import LuaMachine.Library.Arguments
import LuaMachine.Library.Base
import LuaMachine.Library.Coroutine
import LuaMachine.Library.Host
import LuaMachine.Library.Module
import LuaMachine.Limits
import LuaMachine.Machine.Activation
import LuaMachine.Machine.Basic
import LuaMachine.Machine.Call
import LuaMachine.Machine.Execute
import LuaMachine.Machine.Frames
import LuaMachine.Machine.Lifetime
import LuaMachine.Machine.Metamethod
import LuaMachine.Machine.References
import LuaMachine.Machine.Registers
import LuaMachine.Machine.Step
import LuaMachine.Machine.Substitution
import LuaMachine.Machine.Teardown
import LuaMachine.Machine.Walk
import LuaMachine.Main
import LuaMachine.Number.Binary
import LuaMachine.Number.Decimal
import LuaMachine.Number.Double
import LuaMachine.Number.Numeral
import LuaMachine.Number.Text
import LuaMachine.Object
import LuaMachine.Proofs.Chunk.Encoding
import LuaMachine.Proofs.Chunk.Reading
import LuaMachine.Proofs.Chunk.Refusing
import LuaMachine.Proofs.Chunk.Rereading
import LuaMachine.Proofs.Chunk.RoundTrip
import LuaMachine.Proofs.Chunk.Takes
import LuaMachine.Proofs.External
import LuaMachine.Proofs.Instruction.Size
import LuaMachine.Proofs.Instruction.Word
import LuaMachine.Proofs.Json.Canonical
import LuaMachine.Proofs.Json.Naming
import LuaMachine.Proofs.Json.Plain
import LuaMachine.Proofs.Json.RoundTrip
import LuaMachine.Proofs.Json.Sequence
import LuaMachine.Proofs.Machine.Abreast
import LuaMachine.Proofs.Machine.Accessible
import LuaMachine.Proofs.Machine.ActiveChain
import LuaMachine.Proofs.Machine.ActiveChainSteps
import LuaMachine.Proofs.Machine.Activity
import LuaMachine.Proofs.Machine.Arrival
import LuaMachine.Proofs.Machine.Bare
import LuaMachine.Proofs.Machine.BareSteps
import LuaMachine.Proofs.Machine.BareWork
import LuaMachine.Proofs.Machine.BaseLibrary
import LuaMachine.Proofs.Machine.Blank
import LuaMachine.Proofs.Machine.Beginning
import LuaMachine.Proofs.Machine.Calling
import LuaMachine.Proofs.Machine.Canonical
import LuaMachine.Proofs.Machine.CanonicalRuns
import LuaMachine.Proofs.Machine.CanonicalSteps
import LuaMachine.Proofs.Machine.Cells
import LuaMachine.Proofs.Machine.Concatenation
import LuaMachine.Proofs.Machine.Counting
import LuaMachine.Proofs.Machine.Disbanding
import LuaMachine.Proofs.Machine.Fuse
import LuaMachine.Proofs.Machine.Driving
import LuaMachine.Proofs.Machine.EmptyLoop
import LuaMachine.Proofs.Machine.Ending
import LuaMachine.Proofs.Machine.Evolving
import LuaMachine.Proofs.Machine.EvolvingSteps
import LuaMachine.Proofs.Machine.Exchanging
import LuaMachine.Proofs.Machine.Failure
import LuaMachine.Proofs.Machine.Fatality
import LuaMachine.Proofs.Machine.FrameLimit
import LuaMachine.Proofs.Machine.Frames
import LuaMachine.Proofs.Machine.Grounding
import LuaMachine.Proofs.Machine.GroundingSteps
import LuaMachine.Proofs.Machine.HandlerChain
import LuaMachine.Proofs.Machine.Heap
import LuaMachine.Proofs.Machine.Instruction
import LuaMachine.Proofs.Machine.Interpreting
import LuaMachine.Proofs.Machine.Leaving
import LuaMachine.Proofs.Machine.Levels
import LuaMachine.Proofs.Machine.Native
import LuaMachine.Proofs.Machine.Nesting
import LuaMachine.Proofs.Machine.NestingSteps
import LuaMachine.Proofs.Machine.Neutrality
import LuaMachine.Proofs.Machine.NumericLoop
import LuaMachine.Proofs.Machine.OpenValues
import LuaMachine.Proofs.Machine.Operation
import LuaMachine.Proofs.Machine.Outline
import LuaMachine.Proofs.Machine.Ownership
import LuaMachine.Proofs.Machine.Pace
import LuaMachine.Proofs.Machine.Passes
import LuaMachine.Proofs.Machine.Pausing
import LuaMachine.Proofs.Machine.Quiet
import LuaMachine.Proofs.Machine.Reached
import LuaMachine.Proofs.Machine.Reentry
import LuaMachine.Proofs.Machine.Restarting
import LuaMachine.Proofs.Machine.Results
import LuaMachine.Proofs.Machine.Resuming
import LuaMachine.Proofs.Machine.Resumption
import LuaMachine.Proofs.Machine.Retaining
import LuaMachine.Proofs.Machine.Roster
import LuaMachine.Proofs.Machine.Running
import LuaMachine.Proofs.Machine.Setting
import LuaMachine.Proofs.Machine.Steady
import LuaMachine.Proofs.Machine.Storing
import LuaMachine.Proofs.Machine.Substitution
import LuaMachine.Proofs.Machine.TailCalls
import LuaMachine.Proofs.Machine.Teardown
import LuaMachine.Proofs.Machine.Tracking
import LuaMachine.Proofs.Machine.Transparency
import LuaMachine.Proofs.Machine.Unwinding
import LuaMachine.Proofs.Machine.Visits
import LuaMachine.Proofs.Machine.WeakMode
import LuaMachine.Proofs.Number.Addition
import LuaMachine.Proofs.Number.Double
import LuaMachine.Proofs.Number.Numeral
import LuaMachine.Proofs.Number.Order
import LuaMachine.Proofs.Number.Rounding
import LuaMachine.Proofs.Number.Single
import LuaMachine.Proofs.Prototype.Constant
import LuaMachine.Proofs.Prototype.Naming
import LuaMachine.Proofs.Table.Alone
import LuaMachine.Proofs.Table.ArraySize
import LuaMachine.Proofs.Table.Border
import LuaMachine.Proofs.Table.Chain
import LuaMachine.Proofs.Table.Contents
import LuaMachine.Proofs.Table.HalfFull
import LuaMachine.Proofs.Table.HashPart
import LuaMachine.Proofs.Table.HashPart.Refill
import LuaMachine.Proofs.Table.HashPart.Update
import LuaMachine.Proofs.Table.History
import LuaMachine.Proofs.Table.Key
import LuaMachine.Proofs.Table.Layout
import LuaMachine.Proofs.Table.Length
import LuaMachine.Proofs.Table.Operations
import LuaMachine.Proofs.Table.Rehash
import LuaMachine.Proofs.Table.Spine
import LuaMachine.Proofs.Table.Strong
import LuaMachine.Proofs.Table.Traversal
import LuaMachine.Proofs.Table.Update
import LuaMachine.Proofs.Table.Vanishing
import LuaMachine.Proofs.Table.WellFormed
import LuaMachine.Proofs.Text.Utf8
import LuaMachine.Proofs.Value.Canonical
import LuaMachine.Proofs.Value.Comparing
import LuaMachine.Proofs.Value.Endless
import LuaMachine.Proofs.Value.Integers
import LuaMachine.Proofs.Value.Overflow
import LuaMachine.Proofs.Value.Stepping
import LuaMachine.Prototype.Basic
import LuaMachine.Prototype.Constant
import LuaMachine.Prototype.Naming
import LuaMachine.Session
import LuaMachine.Table.Basic
import LuaMachine.Table.Hash
import LuaMachine.Table.HashPart
import LuaMachine.Table.Slot
import LuaMachine.Table.Traversal
import LuaMachine.Text.Address
import LuaMachine.Text.Hex
import LuaMachine.Text.Quoted
import LuaMachine.Text.Utf8
import LuaMachine.Text.Visible
import LuaMachine.Thread.Basic
import LuaMachine.Thread.Frame
import LuaMachine.Value.Basic
import LuaMachine.Value.List
import LuaMachine.Value.Order
