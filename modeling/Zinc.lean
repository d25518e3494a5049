import Zinc.CommandLine.Execute
import Zinc.Main
import Zinc.Proofs.Code.Discipline
import Zinc.Proofs.Code.Format
import Zinc.Proofs.Code.Generate
import Zinc.Proofs.Code.Layout
import Zinc.Proofs.Code.Nesting
import Zinc.Proofs.Document
import Zinc.Proofs.Expr.Code
import Zinc.Proofs.Expr.Evaluate
import Zinc.Proofs.Globals
import Zinc.Proofs.Heap.Agree
import Zinc.Proofs.Heap.Collect
import Zinc.Proofs.Heap.Reach
import Zinc.Proofs.Heap.Retained
import Zinc.Proofs.Host.Convert
import Zinc.Proofs.Machine.Advance
import Zinc.Proofs.Machine.Area
import Zinc.Proofs.Machine.Bounds
import Zinc.Proofs.Machine.Checkpoint
import Zinc.Proofs.Machine.Compile
import Zinc.Proofs.Machine.Congruence
import Zinc.Proofs.Machine.Entry
import Zinc.Proofs.Machine.Formed
import Zinc.Proofs.Machine.Frame
import Zinc.Proofs.Machine.Meets
import Zinc.Proofs.Machine.Represents
import Zinc.Proofs.Machine.Safe
import Zinc.Proofs.Machine.Simulate
import Zinc.Proofs.Machine.TailCall
import Zinc.Proofs.Machine.Sound
import Zinc.Proofs.Machine.Twin
import Zinc.Proofs.Machine.Typed
import Zinc.Proofs.Machine.Unbounded
import Zinc.Proofs.Machine.Usage
import Zinc.Proofs.Program.Undo
import Zinc.Proofs.Request
import Zinc.Proofs.Session.Congruence
import Zinc.Proofs.Session.Correct
import Zinc.Proofs.Session.Load
import Zinc.Proofs.Session.Sound
import Zinc.Proofs.Session.TailCall
import Zinc.Proofs.Session.Twin
import Zinc.Session
import Zinc.Proofs.Machine.Contained
import Zinc.Proofs.Machine.Checked
import Zinc.Proofs.Session.Hostile
import Zinc.Proofs.Handle
import Zinc.Proofs.Machine.Carried
import Zinc.Proofs.Session.Held
import Zinc.Proofs.Machine.Moved
import Zinc.Proofs.Session.Ownership
import Zinc.Proofs.Heap.Mirror
import Zinc.Proofs.Machine.Locals
import Zinc.Proofs.Machine.Abreast
import Zinc.Proofs.Machine.Lockstep
import Zinc.Proofs.Machine.Curry
import Zinc.Proofs.Session.Curry
import Zinc.Proofs.Code.Refers
import Zinc.Proofs.Machine.Beyond
import Zinc.Proofs.Program.Stages
import Zinc.Proofs.Session.Idle
import Zinc.Proofs.Session.Staged
import Zinc.Proofs.Code.Emit
import Zinc.Proofs.Expr.Scope
import Zinc.Proofs.Code.Capacity
import Zinc.Proofs.Machine.Refused
import Zinc.Proofs.Session.Effect
import Zinc.Proofs.Globals.Index
import Zinc.Proofs.Handle.History
import Zinc.Heap.Header
import Zinc.Heap.Memory
import Zinc.Proofs.Host.RoundTrip
import Zinc.Proofs.Heap.Bookkeeping
import Zinc.Proofs.Heap.Ordered
import Zinc.Proofs.Host.Descent
import Zinc.Proofs.Machine.Ordered
import Zinc.Proofs.Session.Acyclic
import Zinc.Proofs.Heap.Tree
import Zinc.Proofs.Heap.Shows
import Zinc.Proofs.Session.Faithful
import Zinc.Proofs.Host.Verdict
import Zinc.Proofs.Host.Unmarshal
import Zinc.Proofs.Session.Unmarshal
import Zinc.Proofs.Code.Bodies
import Zinc.Proofs.Code.Listing
import Zinc.Proofs.CommandLine.Disassembly
import Zinc.Proofs.Lir.Dump
import Zinc.Proofs.Session.Locals
