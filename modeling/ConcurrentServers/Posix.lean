import Mathlib.Tactic

/-!
# System calls as the servers see them

A system call either fails with an error number or returns a value. The values
that the servers distinguish are the constructors of `Errno`; every other error
number is `other`. `EWOULDBLOCK` and `EAGAIN` are one number on Linux.
-/

namespace ConcurrentServers

inductive Errno where
  | eintr
  | eagain
  | econnreset
  | epipe
  | etimedout
  | econnaborted
  | emfile
  | enfile
  | enobufs
  | enomem
  | other (code : ℕ)
  deriving DecidableEq, Repr

abbrev Errno.ewouldblock : Errno := .eagain

abbrev SysResult (α : Type) := Except Errno α

end ConcurrentServers
