import RedisImpl.Platform
import Mathlib.Data.Multiset.Basic

/-!
# Requests and queues

A `Request` of `server.h` and the functions on its time, and the queue of `queue.c` as the list of
the data of its nodes, from the front to the rear.
-/

namespace RedisImpl

/-- `Request`. `id` tells requests apart, as the address of the record does: it counts the accepted
connections. -/
structure Request where
  id : Nat
  fd : Int
  ts : Timespec
  deriving DecidableEq

/-- `get_time_diff`. -/
def getTimeDiff (a b : Timespec) : Timespec := ⟨a.tvSec - b.tvSec, a.tvNsec - b.tvNsec⟩

/-- `was_waiting_time_exceeded`. -/
def wasWaitingTimeExceeded (r : Rounding) (diff : Timespec) (dltSec : ℚ) (maxQueueTime : Int) :
    Bool :=
  let dltSec := if dltSec > r.flt maxQueueTime then r.flt maxQueueTime else dltSec
  r.flt (r.seconds diff) > dltSec

/-- `get_front`. -/
def getFront {α : Type} (q : List α) : Option α := q.head?

/-- `enqueue`. -/
def enqueue {α : Type} (q : List α) (data : α) : List α := q ++ [data]

/-- `dequeue`: the data of the front node, and the queue after it. -/
def dequeue {α : Type} (q : List α) : Option α × List α := (q.head?, q.tail)

@[simp] theorem dequeue_nil {α : Type} : dequeue ([] : List α) = (none, []) := rfl
@[simp] theorem dequeue_cons {α : Type} (x : α) (q : List α) : dequeue (x :: q) = (some x, q) := rfl
@[simp] theorem getFront_cons {α : Type} (x : α) (q : List α) : getFront (x :: q) = some x := rfl

@[simp] theorem length_enqueue {α : Type} (q : List α) (x : α) :
    (enqueue q x).length = q.length + 1 := by
  simp [enqueue]

theorem coe_enqueue {α : Type} (q : List α) (x : α) :
    (enqueue q x : Multiset α) = x ::ₘ (q : Multiset α) := by
  rw [enqueue, Multiset.cons_coe, Multiset.coe_eq_coe]
  exact List.perm_append_singleton x q

end RedisImpl
