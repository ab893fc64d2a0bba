import Mathlib.Algebra.GroupWithZero.Nat
import Mathlib.Tactic.Common

/-!
# `Semaphore`

The counting semaphore of `include/jthread.hpp`, at the granularity of its critical sections: a
wait that passes takes one token, a signal adds one. `count_` is an `unsigned`, so that a signal
wraps around at 2^32.
-/

namespace Pdk.Sync

structure Semaphore where
  count : ℕ
  deriving DecidableEq, Repr

namespace Semaphore

/-- The end of `wait()` and of a successful `wait(msecs)`: the predicate `count_ > 0` holds and
    one token is taken. There is no result while the thread has to wait. -/
def wait (s : Semaphore) : Option Semaphore :=
  if 0 < s.count then some ⟨s.count - 1⟩ else none

/-- `signal()`. -/
def signal (s : Semaphore) : Semaphore :=
  ⟨(s.count + 1) % 2 ^ 32⟩

/-- `reset_count(value)`. -/
def resetCount (_ : Semaphore) (value : ℕ) : Semaphore :=
  ⟨value⟩

theorem count_of_wait {s s' : Semaphore} (h : s.wait = some s') : s.count = s'.count + 1 := by
  rw [wait] at h
  split at h
  · cases h
    simp only
    omega
  · cases h

theorem count_of_wait_none {s : Semaphore} (h : s.wait = none) : s.count = 0 := by
  rw [wait] at h
  split at h
  · cases h
  · rename_i hnot
    exact Nat.eq_zero_of_not_pos hnot

theorem count_signal {s : Semaphore} (h : s.count + 1 < 2 ^ 32) :
    s.signal.count = s.count + 1 :=
  Nat.mod_eq_of_lt h

end Semaphore

end Pdk.Sync
