import Mathlib.Data.List.Basic

/-! # Threads that wait (`process/thread.rs`, `sync/condvar.rs`)

A thread is a number; it keeps its number when it is dropped. Kernel code runs without preemption
between two yields, so an operation of a condition variable is one step.
-/

namespace HectoOs.Sync

inductive ThreadStatus where
  | Ready
  | Running
  | Waiting
  | Zombie
  deriving DecidableEq, Repr

/-- The status of each thread; `none` for a thread that has been dropped. -/
abbrev Threads := Nat → Option ThreadStatus

namespace Threads

/-- An assignment through `upgrade`: a thread that has been dropped is skipped. -/
def set_status (threads : Threads) (t : Nat) (status : ThreadStatus) : Threads :=
  fun u => if u = t then (threads t).map fun _ => status else threads u

/-- The last reference to the thread goes. -/
def drop (threads : Threads) (t : Nat) : Threads := fun u => if u = t then none else threads u

variable {threads : Threads} {t u : Nat} {status : ThreadStatus}

theorem set_status_self : threads.set_status t status t = (threads t).map fun _ =>
    status := if_pos rfl

theorem set_status_ne (h : u ≠ t) : threads.set_status t status u = threads u := if_neg h

theorem set_status_isSome : (threads.set_status t status u).isSome = (threads u).isSome := by
  by_cases h : u = t
  · rw [h, set_status_self, Option.isSome_map]
  · rw [set_status_ne h]

theorem set_status_eq_waiting (h : threads.set_status t .Ready u = some .Waiting) :
    u ≠ t ∧ threads u = some .Waiting := by
  unfold set_status at h
  split at h
  · simp at h
  · exact ⟨‹_›, h⟩

theorem drop_eq_some (h : threads.drop t u = some status) : u ≠ t ∧ threads u = some status := by
  unfold drop at h
  split at h
  · simp at h
  · exact ⟨‹_›, h⟩

end Threads

/-! ## The condition variable -/

namespace Condvar

/-- `wait`: the thread is marked and queued, and goes on running. -/
def wait (threads : Threads) (wait_queue : List Nat) (t : Nat) : Threads × List Nat :=
  (threads.set_status t .Waiting, wait_queue ++ [t])

/-- `notify_all`: the queue is emptied, and whoever was in it is ready. -/
def notify_all (threads : Threads) : List Nat → Threads
  | [] => threads
  | t :: wait_queue => notify_all (threads.set_status t .Ready) wait_queue

theorem notify_all_waiting {threads : Threads} {wait_queue : List Nat}
    {u : Nat} (h : notify_all threads wait_queue u = some .Waiting) :
    u ∉ wait_queue ∧ threads u = some .Waiting := by
  induction wait_queue generalizing threads with
  | nil => exact ⟨by simp, h⟩
  | cons t wait_queue ih =>
    obtain ⟨hnot, hw⟩ := ih h
    obtain ⟨hne, hw⟩ := Threads.set_status_eq_waiting hw
    exact ⟨by simp [hne, hnot], hw⟩

end Condvar

end HectoOs.Sync
