/-!
# Status codes

`include/rorthox/status.h`. A C function that returns 0 or a negated code is an
`Except Errno` here; `Errno.code` is the value a caller sees.
-/

namespace Rorthox

inductive Errno where
  | eio
  | einvarg
  | enomem
  | ebadpath
  | efsnotus
  | erdonly
  | eunimp
  | eistkn
  | einformat
  | enoent
  | ebadf
  | enospc
  | emfile
  | efbig
  deriving DecidableEq, Repr

/-- The number a caller sees: the negated constant of the header. -/
def Errno.code : Errno → Int
  | .eio => -1
  | .einvarg => -2
  | .enomem => -3
  | .ebadpath => -4
  | .efsnotus => -5
  | .erdonly => -6
  | .eunimp => -7
  | .eistkn => -8
  | .einformat => -9
  | .enoent => -10
  | .ebadf => -11
  | .enospc => -12
  | .emfile => -13
  | .efbig => -14

theorem Errno.code_neg (e : Errno) : e.code < 0 := by cases e <;> decide

end Rorthox
