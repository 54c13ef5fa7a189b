import BoundedWasm.Native

/-!
# BoundedWasm.Native.Script — native functions as lists of steps

A script is a native function without choices of its own: its steps are done in order and the first
that fails ends it. What `pop` takes is kept, so that later steps can refer to it by its number.
-/

namespace BoundedWasm.Script

inductive Step where
  | pop
  | tryPop
  | popI32
  | popU32
  | popF32
  | tryPopI32
  | push (value : Value)
  | pushMany (value : Value) (count : Nat)
  | repush (kept : Nat)
  | add (kept : Nat) (n : BitVec 32)
  | memorySize
  | peek (start length : Nat)
  | poke (start : Nat) (bytes : List UInt8)
  | cellAdd (cell : CellId) (n : BitVec 32)
  | fail (fault : Fault)

/-- The report of an answer, or of the fault in its place. -/
def reportOf {α : Type} (report : α → Report) : Except Fault α → Report
  | .ok answer => report answer
  | .error fault => .fault fault

/-- The native function that does the steps, when `kept` was popped before. -/
def nativeFrom : List Step → (kept : Array Value) → Native
  | [], _ => .finish (.ok ())
  | step :: steps, kept =>
    let next := nativeFrom steps kept
    match step with
    | .pop =>
      Native.popThen fun value => .report (.value value) (nativeFrom steps (kept.push value))
    | .tryPop => .pop fun answer => .report (reportOf .value answer) next
    | .popI32 => Native.popI32 (Native.orFail fun bits => .report (.word bits.toInt) next)
    | .popU32 => Native.popU32 (Native.orFail fun n => .report (.word n.toNat) next)
    | .popF32 => Native.popF32 (Native.orFail fun bits => .report (.value (.f32 bits)) next)
    | .tryPopI32 =>
      Native.popI32 fun answer => .report (reportOf (fun bits => .word bits.toInt) answer) next
    | .push value => Native.pushThen value next
    | .pushMany value count => Native.pushMany value count next
    | .repush i => Native.pushThen (kept.getD i default) next
    | .add i n =>
      Native.orFail (fun bits => Native.pushThen (.i32 (bits + n)) next) (kept.getD i default).asI32
    | .memorySize => .memorySize fun size => .report (.word size) next
    | .peek start length => .readMemory start length fun
      | some bytes => .report (.bytes bytes) next
      | none => .report .absent next
    | .poke start bytes => .writeMemory start bytes fun
      | true => next
      | false => .report .absent next
    | .cellAdd cell n => .readCell cell fun bits => .writeCell cell (bits + n) next
    | .fail fault => Native.fail fault

/-- The native function that does the steps. -/
def native (steps : List Step) : Native := nativeFrom steps #[]

end BoundedWasm.Script
