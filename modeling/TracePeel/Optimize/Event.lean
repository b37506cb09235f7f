import TracePeel.Operation

/-! What happens during an optimization, for whoever listens.

An event has a severity, the part of the program it comes from, and named fields;
its sentence, where it has one, is the field `message`. -/
namespace TracePeel

inductive Severity where
  | trace
  | debug
  | warn
  deriving Repr, DecidableEq

def Severity.name : Severity → String
  | trace => "TRACE"
  | debug => "DEBUG"
  | warn => "WARN"

inductive Event where
  | emitted (opcode : Opcode)
  | preambleClosed (ops : Nat)
  | peeling (fromStart inputs : Nat)
  | inlined (opcode : Opcode)
  | inputAdded (input : Box) (next : Operand)
  | folded (opcode : Opcode) (value : Const)
  | reused (opcode : Opcode)
  | madeVirtual (value : Nat)
  | tooLong (ops limit : Nat)
  | abandoned (loop error : String)
  | recorded (dump : String)
  | produced (dump : String)
  | optimized (loop : String) (opsIn opsOut : Nat) (peeled : Bool)
  deriving Repr, DecidableEq

namespace Event

def severity : Event → Severity
  | emitted _ | inlined _ | folded _ _ | reused _ | madeVirtual _ => .trace
  | tooLong _ _ | abandoned _ _ => .warn
  | _ => .debug

/-- The part of the program an event comes from. -/
def target : Event → String
  | emitted _ => "tj::sink"
  | preambleClosed _ | peeling _ _ | inlined _ | inputAdded _ _ => "tj::unroll"
  | folded _ _ | reused _ => "tj::rewrite"
  | madeVirtual _ => "tj::virtualize"
  | tooLong _ _ | abandoned _ _ | optimized _ _ _ _ => "tj::opt"
  | recorded _ => "tj::jit-log-noopt-loop"
  | produced _ => "tj::jit-log-opt-loop"

def fields : Event → List (String × String)
  | emitted opcode => [("message", "emit"), ("opnum", opcode.name)]
  | preambleClosed ops => [("message", "preamble closed"), ("ops", toString ops)]
  | peeling fromStart inputs =>
    [("message", "peeling loop body"), ("fromstart", toString fromStart),
      ("inputs", toString inputs)]
  | inlined opcode => [("message", "inlined"), ("opnum", opcode.name)]
  | inputAdded input next =>
    [("message", "from-start value added to loop inputs"), ("input", input.name),
      ("next", next.text)]
  | folded opcode value =>
    [("message", "folded"), ("opnum", opcode.name), ("value", value.text)]
  | reused opcode => [("message", "reused pure operation"), ("opnum", opcode.name)]
  | madeVirtual value =>
    [("message", "allocation made virtual"), ("value", toString value)]
  | tooLong ops limit =>
    [("message", "trace too long, giving up"), ("ops", toString ops),
      ("limit", toString limit)]
  | abandoned loop error =>
    [("message", "optimization abandoned"), ("loop_name", loop), ("error", error)]
  | recorded dump => [("message", "\n" ++ dump)]
  | produced dump => [("message", "\n" ++ dump)]
  | optimized loop opsIn opsOut peeled =>
    [("message", "loop optimized"), ("loop_name", loop), ("ops_in", toString opsIn),
      ("ops_out", toString opsOut), ("peeled", toString peeled)]

end Event
end TracePeel
