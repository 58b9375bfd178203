import StackVm.Event
import StackVm.Machine.Termination

/-!
# Running a thread

`Thread.run` takes turns until the outermost call returns or an instruction
traps, and `Thread.log` lists what happens on the way.
-/

namespace StackVm

namespace Thread

/-- Takes turns until the outermost call returns or an instruction traps. The
thread that comes with the outcome is the one then reached. -/
def run (budget : Option Nat) (t : Thread) : Except Fault Unit × Thread :=
  match _h : t.turn budget with
  | .more t' => run budget t'
  | .stop outcome t' => (outcome, t')
termination_by t.left
decreasing_by exact left_turn _h

/-- The events of one turn: what is dispatched, and where it returns to. -/
def turnEvents (budget : Option Nat) (t : Thread) : List Event :=
  match t.fetch budget with
  | .error _ => []
  | .ok op =>
    let outcome :=
      match t.dispatch op with
      | .more t' =>
        if op = .endBody then [.returnedToCaller t'.current.functionIndex t'.current.cursor] else []
      | .stop (.ok ()) _ => [.entryReturned]
      | .stop (.error _) _ => []
    .dispatch t.current.functionIndex t.current.cursor op :: outcome

/-- The events of a run, behind those already `done`. -/
def logFrom (budget : Option Nat) (t : Thread) (done : Array Event) : Array Event :=
  let done := done ++ t.turnEvents budget
  match _h : t.turn budget with
  | .more t' => logFrom budget t' done
  | .stop _ _ => done
termination_by t.left
decreasing_by exact left_turn _h

/-- The events of a run. -/
def log (budget : Option Nat) (t : Thread) : List Event :=
  (logFrom budget t #[]).toList

end Thread

end StackVm
