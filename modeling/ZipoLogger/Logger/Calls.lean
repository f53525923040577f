/-
  The steps of a call that nothing interferes with, from the call to its return.

  They are the pieces the concrete schedules of this development are put together from.
-/
import ZipoLogger.Logger.WellFormed
import ZipoLogger.Enc.RoundTrip

namespace ZipoLogger

open Enc

instance : Inhabited Action := ⟨.spawn⟩

/-- `n` steps of a goroutine that need nothing from outside. -/
def steps (g : Gid) (n : Nat) : List Action := List.replicate n (.go g .tau)

/-- `NewLogger(f, …)` for a name that is not in the registry, with no eviction. -/
def newLoggerCall (g : Gid) (f : Bytes) : List Action :=
  .go g (.call (.newLogger { filename := f })) :: steps g 5

/-- `l.Print(msg)` up to and including its `logTasks.Add(1)`. -/
def printAdd (g : Gid) (l : Ptr) (msg : Bytes) : List Action :=
  [.go g (.call (.print l msg)), .go g .tau, .go g (.stamp [])]

/-- `l.Print(msg)` with the gate open and a free slot. -/
def printCall (g : Gid) (l : Ptr) (msg : Bytes) : List Action := printAdd g l msg ++ steps g 1

/-- The worker takes a message whose writer opens and writes it. -/
def workerWrites (draws : Draws) : List Action :=
  [.worker .tau, .worker .tau, .worker (.create .ok), .worker .tau, .worker .tau, .worker .tau,
    .worker (.emit draws .ok)]

/-- The state a schedule leads to from the start. -/
theorem reach_exec {as : List Action} (h : ((machine unitPrimitives).exec {} as).isSome) :
    (machine unitPrimitives).Reach (((machine unitPrimitives).exec {} as).get h) :=
  Machine.exec_reach (Option.some_get h).symm

theorem reachIf_exec {c : State → Action → Bool} {as : List Action}
    (h : ((machine unitPrimitives).execIf c {} as).isSome) :
    (machine unitPrimitives).ReachIf (fun u a => c u a = true)
      (((machine unitPrimitives).execIf c {} as).get h) :=
  Machine.execIf_run (Option.some_get h).symm

end ZipoLogger
