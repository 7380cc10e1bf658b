import AosvFibers.Model.Fibers

/-!
# The system call interface, `module/ioctl.c`

`fibers_ioctl` picks the operation by the command number, fetches the
`struct fiber_arguments` the command needs from user memory and passes on the
operation's result. What the accesses to user memory do is outside the module
and given as a `UserAccess`.
-/

namespace AosvFibers

/-- `-EFAULT` -/
abbrev eFault : ℤ := -14

/-- `-EINVAL` -/
abbrev eInval : ℤ := -22

/-- `struct fiber_arguments` (module/fibers.h:32-42). -/
structure FiberArguments where
  stackPointer : Word
  stackSize : Word
  startFunctionAddress : Word
  startFunctionArguments : Word
  fiberId : PidT
  index : Word
  buffer : Word

/-- What the accesses to user memory do during one system call: the result of
    `access_ok`, what `copy_from_user` copies if it does not fail, and whether
    `copy_to_user` copies. -/
structure UserAccess where
  accessOk : Bool
  copyFromUser : Option FiberArguments
  copyToUser : Bool

/-- The arguments of the call, if both checks on `arg` pass. -/
def UserAccess.arguments (u : UserAccess) : Option FiberArguments :=
  if u.accessOk then u.copyFromUser else none

/-- `_IO(major, nr)` (module/ioctl.h:1-7), a `long`. -/
def ioctlCmd (E : Env) (nr : Word) : Word := (E.major <<< 8) ||| nr

/-- `cmd == _IO(major, nr)`, the `unsigned int` widened to a `long`. -/
def isCmd (E : Env) (cmd : BitVec 32) (nr : Word) : Bool := cmd.setWidth 64 == ioctlCmd E nr

/-- `fibers_ioctl` (module/ioctl.c:23-121). -/
def fibersIoctl (E : Env) (cur : Task) (cmd : BitVec 32) (u : UserAccess) : K ℤ := do
  let threadId := cur.pid
  if isCmd E cmd 0 then
    doConvertThreadToFiber E cur threadId
  else if isCmd E cmd 1 then
    match u.arguments with
    | none => return eFault
    | some fa =>
      doCreateFiber E cur fa.stackPointer fa.stackSize fa.startFunctionAddress
        fa.startFunctionArguments threadId
  else if isCmd E cmd 2 then
    match u.arguments with
    | none => return eFault
    | some fa => doSwitchToFiber E cur fa.fiberId threadId
  else if isCmd E cmd 3 then
    doFlsAlloc E cur threadId
  else if isCmd E cmd 4 then
    match u.arguments with
    | none => return eFault
    | some fa => return if ← doFlsFree E cur fa.index.toInt threadId then 1 else 0
  else if isCmd E cmd 5 then
    match u.arguments with
    | none => return eFault
    | some fa =>
      let _ret ← doFlsGetValue E cur fa.index.toInt threadId
      if !u.copyToUser then return eFault
      return 0
  else if isCmd E cmd 6 then
    match u.arguments with
    | none => return eFault
    | some fa =>
      doFlsSetValue E cur fa.index.toInt fa.buffer threadId
      return 0
  else return eInval

end AosvFibers
