import Mathlib

/- What the three kernels of the repository share: the size of the process
   table, process slots and the states of a process or a thread (`param.h`,
   `proc.h`). -/
namespace Xv6

abbrev NPROC : Nat := 64

instance : NeZero NPROC := ⟨by decide⟩

/-- A `struct proc *`: the position in `ptable.proc`. -/
abbrev Slot := Fin NPROC

/-- `enum procstate`. -/
inductive ProcState where
  | UNUSED | EMBRYO | SLEEPING | RUNNABLE | RUNNING | ZOMBIE
  deriving DecidableEq, Repr

end Xv6
