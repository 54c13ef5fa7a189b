import BoundedWasm.Binding
import BoundedWasm.Bytes.Lemmas
import BoundedWasm.FixedVec.Lemmas
import BoundedWasm.Machine.Evaluate
import BoundedWasm.Native.Script
import BoundedWasm.Proofs.ActionLogic
import BoundedWasm.Proofs.Module.WellFormed
import BoundedWasm.Proofs.Decode.Entry
import BoundedWasm.Proofs.Decode.Body
import BoundedWasm.Proofs.Decode.Sections
import BoundedWasm.Proofs.Decode.Module
import BoundedWasm.Proofs.Machine.Change
import BoundedWasm.Proofs.Machine.Invoke
import BoundedWasm.Proofs.Machine.Frame
import BoundedWasm.Proofs.Module.Prepared
import BoundedWasm.Proofs.Machine.Session
import BoundedWasm.Proofs.Machine.Moment
import BoundedWasm.Proofs.Machine.Discipline
import BoundedWasm.Proofs.Machine.Poison
import BoundedWasm.Proofs.Machine.Plain
import BoundedWasm.Proofs.Machine.Mirror
import BoundedWasm.Proofs.Machine.Refinement
import BoundedWasm.Proofs.Decode.Operands
import BoundedWasm.Proofs.Decode.Reuse
import BoundedWasm.Proofs.Machine.Nesting
import BoundedWasm.Proofs.Machine.Trace
import BoundedWasm.Proofs.Machine.Interpreter
import BoundedWasm.Proofs.Module.Runnable
import BoundedWasm.Proofs.Module.Requests
import BoundedWasm.Proofs.Reader.Gathering
import BoundedWasm.Proofs.Reader.Advance
import BoundedWasm.Proofs.Decode.Framing
import BoundedWasm.Proofs.Machine.Cells
import BoundedWasm.Proofs.Machine.Stored
import BoundedWasm.Proofs.Machine.Refusal
import BoundedWasm.Proofs.Machine.Termination
import BoundedWasm.Proofs.Machine.Callback
import BoundedWasm.Proofs.Encoding.Bodies
import BoundedWasm.Proofs.Encoding.RoundTrip
import BoundedWasm.Proofs.Decode.Transparency
import BoundedWasm.Proofs.Machine.Typing
import BoundedWasm.Proofs.Machine.Boundary
import BoundedWasm.Proofs.Machine.Alike
import BoundedWasm.Proofs.Machine.Confinement
import BoundedWasm.Proofs.Reader.Leb128
import BoundedWasm.Proofs.Encoding.Recognition
import BoundedWasm.Proofs.Encoding.Balance
import BoundedWasm.Proofs.Decode.Memories
import BoundedWasm.Proofs.Machine.Creation
import BoundedWasm.Proofs.Reader.Unsigned
import BoundedWasm.Proofs.Module.IndexSpace
import BoundedWasm.Proofs.Machine.Globals
import BoundedWasm.Proofs.Machine.MemoryAccess
import BoundedWasm.Proofs.Signature
import BoundedWasm.Proofs.Reader.Operations
import BoundedWasm.Proofs.Reader.Sharing
import BoundedWasm.Proofs.Numeric.Words
import BoundedWasm.Proofs.Machine.Operators
import BoundedWasm.Proofs.Numeric.Reading
import BoundedWasm.Proofs.Machine.Truncation
import BoundedWasm.Proofs.Machine.Extremes
import BoundedWasm.Proofs.Decode.Appending
import BoundedWasm.Proofs.Machine.Opening
import BoundedWasm.Proofs.Machine.TypedPops
import BoundedWasm.Proofs.FixedVec
import BoundedWasm.Proofs.Machine.EffectiveRange
