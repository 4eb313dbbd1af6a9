import Sails.Net.NetThread

/-!
# The net threads of a server

A server with `n` net threads gives each connection to the thread `fd % n`.

- `threadServer`: the server as its `i`-th net thread sees it
- `netThreadOfFd`: `GetNetThreadOfFd`
- `NetThreads`: the states of the threads
-/

namespace Sails.Net

open TransitionRun (Fault)
open CMemory
open Sails.Base

/-- The server as its `i`-th net thread sees it. -/
def threadServer (n : Nat) (parseImp : Connector → Buffer × ExtData) (i : Nat) : Server :=
  ⟨n, i, parseImp⟩

/-- `GetNetThreadOfFd`: the number of the net thread, `fd % netThreads.size()`. -/
def netThreadOfFd (n : Nat) (fd : Int) : Nat := (fd.emod (2 ^ 64) % n).toNat

theorem netThreadOfFd_lt {n : Nat} (hn : n ≠ 0) (fd : Int) : netThreadOfFd n fd < n := by
  have hpos : (0 : Int) < n := by omega
  have hlt := Int.emod_lt_of_pos (fd.emod (2 ^ 64)) hpos
  have hnonneg := Int.emod_nonneg (fd.emod (2 ^ 64)) (Int.ne_of_gt hpos)
  unfold netThreadOfFd
  omega

/-- The net threads, by number. -/
abbrev NetThreads := Nat → NetThread

namespace NetThreads

/-- Thread `i` is now in state `t`. -/
def set (threads : NetThreads) (i : Nat) (t : NetThread) : NetThreads :=
  fun j => if j = i then t else threads j

@[simp] theorem set_self (threads : NetThreads) (i : Nat) (t : NetThread) :
    threads.set i t i = t := if_pos rfl

theorem set_ne {threads : NetThreads} {i j : Nat} {t : NetThread} (h : j ≠ i) :
    threads.set i t j = threads j := if_neg h

theorem set_same (threads : NetThreads) (i : Nat) : threads.set i (threads i) = threads := by
  funext j
  by_cases hj : j = i
  · rw [hj, set_self]
  · exact set_ne hj

theorem set_set (threads : NetThreads) (i : Nat) (t u : NetThread) :
    (threads.set i t).set i u = threads.set i u := by
  funext j
  by_cases hj : j = i
  · rw [hj, set_self, set_self]
  · rw [set_ne hj, set_ne hj, set_ne hj]

/-- The threads as the server creates them. -/
def init (n : Nat) (parseImp : Connector → Buffer × ExtData) (maxSize : Nat) (now : Nat → Int)
    (connectors : Nat → Connectors) : NetThreads :=
  fun i => NetThread.init (threadServer n parseImp i) maxSize (now i) (connectors i)

end NetThreads

end Sails.Net
