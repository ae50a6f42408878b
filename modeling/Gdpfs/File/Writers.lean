import Gdpfs.File.Ops
import Mathlib.Logic.Function.Basic

/-!
# Concurrent calls of `do_write` (`gdpfs_file.c`)

Any number of threads that each call `do_write` on one file.  Every operation on
a lock and every statement under a lock is a step.
-/

namespace Gdpfs
namespace File

open Log FigTree

/-- The locks of a `gdpfs_file_t` that `do_write` takes. -/
inductive Lock
  | refCount
  | indexFlush
  | cache
  | figtree
  deriving DecidableEq, Repr

/-- The arguments of a call of `do_write`. -/
structure WriteArgs where
  buf : List UInt8
  offset : Nat
  info : FileInfo
  deriving DecidableEq, Repr

/-- The next statement of a call of `do_write`. -/
inductive WritePoint
  /-- In `_file_ref`. -/
  | lockRef
  | ref
  | unlockRef
  | lockReqs
  | countReq
  | unlockReqs
  | lockCache
  | fillCache
  | lockIndex
  | unlockCache
  | number
  | index
  | append
  | unlockIndex
  | returned
  deriving DecidableEq, Repr

/-- What stops a step. -/
inductive WriterFault
  | file (fault : FileFault)
  /-- Another call holds the lock. -/
  | blocked
  /-- The call has returned. -/
  | returned
  deriving DecidableEq, Repr

/-- A file and the calls that write to it. -/
structure Writers (n : Nat) where
  world : World
  /-- Which call holds a lock. -/
  owner : Lock → Option (Fin n)
  point : Fin n → WritePoint
  /-- The variable `rc` of every call. -/
  rc : Fin n → Nat

/-- Code of the calls. -/
abbrev WritersM (n : Nat) := StateT (Writers n) (Except WriterFault)

/-- All calls are about to start. -/
def Writers.start (n : Nat) (world : World) : Writers n where
  world := world
  owner := fun _ => none
  point := fun _ => .lockRef
  rc := fun _ => 0

/-- A call goes on to another statement. -/
def Writers.goTo
    (writers : Writers n)
    (i : Fin n)
    (point : WritePoint) : Writers n :=
  { writers with point := Function.update writers.point i point }

/-- Take a lock that no call holds. -/
def takeLock (lock : Lock) (i : Fin n) (next : WritePoint) :
    WritersM n Unit := do
  let writers ← get
  if writers.owner lock = none then
    set { writers.goTo i next with
      owner := Function.update writers.owner lock (some i) }
  else throw .blocked

/-- Give a lock back. -/
def releaseLock (lock : Lock) (i : Fin n) (next : WritePoint) :
    WritersM n Unit := do
  let writers ← get
  set { writers.goTo i next with
    owner := Function.update writers.owner lock none }

/-- Run code on the file. -/
def onWorld (action : FileM α) (i : Fin n) (next : WritePoint) :
    WritersM n Unit := do
  let writers ← get
  match action.run writers.world with
  | .ok (_, world) => set { writers.goTo i next with world := world }
  | .error fault => throw (.file fault)

/-- The statement that numbers the record. -/
def numberRecord (i : Fin n) (next : WritePoint) : WritersM n Unit := do
  onWorld (modifyFile fun file =>
    { file with lastRecno := file.lastRecno + 1 }) i next
  let writers ← get
  set { writers with
    rc := Function.update writers.rc i writers.world.file.lastRecno }

/-- A call of `do_write` executes its next statement. -/
def writerStep (env : Env) (calls : Fin n → WriteArgs) (i : Fin n) :
    WritersM n Unit := do
  let writers ← get
  let call := calls i
  match writers.point i with
  | .lockRef => takeLock .refCount i .ref
  | .ref => onWorld (modifyFile fileRef) i .unlockRef
  | .unlockRef => releaseLock .refCount i .lockReqs
  | .lockReqs => takeLock .indexFlush i .countReq
  | .countReq =>
      onWorld (modifyFile fun file =>
        { file with outstandingReqs := file.outstandingReqs + 1 }) i
        .unlockReqs
  | .unlockReqs =>
      releaseLock .indexFlush i
        (if env.useCache then .lockCache else .lockIndex)
  | .lockCache => takeLock .cache i .fillCache
  | .fillCache =>
      onWorld (gdpfsFileFillCache env call.buf call.offset) i .lockIndex
  | .lockIndex =>
      takeLock .figtree i (if env.useCache then .unlockCache else .number)
  | .unlockCache => releaseLock .cache i .number
  | .number => numberRecord i .index
  | .index =>
      onWorld
        (if 0 < call.buf.length then
          indexWrite env call.offset call.buf.length (writers.rc i)
        else pure ()) i .append
  | .append =>
      onWorld (gdpfsLogAppend env true
        (dataRecord call.info call.buf call.offset)) i .unlockIndex
  | .unlockIndex => releaseLock .figtree i .returned
  | .returned => throw .returned

end File
end Gdpfs
