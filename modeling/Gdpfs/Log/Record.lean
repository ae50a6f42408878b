import Gdpfs.FigTree.Node

/-!
# Log records (`gdpfs_log.c`, `gdpfs_file.h`)

A file is a log of records, numbered from one in append order.  Every record
starts with a metadata header; data bytes or checkpointed FIG tree nodes follow.
Positions inside a record are byte positions, as in the source: a node image
can only be read where one starts.
-/

namespace Gdpfs
namespace Log

open FigTree

/-- `gdpfs_file_type_t`. -/
inductive FileType
  | regular
  | dir
  | new
  | unknown
  deriving DecidableEq, Repr

/-- `gdpfs_logent_type_t`. -/
inductive LogentType
  | data
  | chkpt
  deriving DecidableEq, Repr

/-- `gdpfs_fmeta_t`. -/
structure Fmeta where
  fileSize : Nat
  filePerm : Nat
  fileType : FileType
  logentType : LogentType
  entOffset : Int
  entSize : Nat
  magic : Nat
  deriving DecidableEq, Repr

/-- `MAGIC_NUMBER`. -/
def magicNumber : Nat := 0xb531479b64f64e0d

/-- What follows the header of a record. -/
inductive Payload
  | bytes (contents : List UInt8)
  | nodes (images : List FtNode)
  deriving DecidableEq, Repr

/-- A datum of the log. -/
structure LogRecord where
  header : Fmeta
  payload : Payload
  deriving DecidableEq, Repr

/-- `sizeof(gdpfs_fmeta_t)`. -/
def sizeofFmeta : Nat := 48

/-- `sizeof(struct ft_node)`. -/
def sizeofFtNode : Nat := 336

/-- Number of bytes after the header. -/
def Payload.size : Payload → Nat
  | .bytes contents => contents.length
  | .nodes images => images.length * sizeofFtNode

/-- The record with a given number. -/
def recordAt (log : List LogRecord) (recno : Nat) : Option LogRecord :=
  if recno = 0 then none else log[recno - 1]?

/-- An opened record and the position up to which it was consumed. -/
structure LogEnt where
  datum : LogRecord
  position : Nat
  deriving DecidableEq, Repr

/-- `gdpfs_log_ent_open` of a positive record number. -/
def gdpfsLogEntOpen (log : List LogRecord) (recno : Nat) : Option LogEnt :=
  (recordAt log recno).map fun datum => ⟨datum, 0⟩

/-- `gdpfs_log_ent_length`: the bytes not consumed yet. -/
def gdpfsLogEntLength (ent : LogEnt) : Nat :=
  sizeofFmeta + ent.datum.payload.size - ent.position

/-- `gdpfs_log_ent_drain`. -/
def gdpfsLogEntDrain (ent : LogEnt) (size : Nat) : LogEnt :=
  { ent with position := ent.position + size }

/-- `gdpfs_log_ent_read` of the metadata header of an entry opened just now,
with the check against the length of the record that every reader makes. -/
def readFmeta (ent : LogEnt) : Except Fault (Fmeta × LogEnt) :=
  if gdpfsLogEntLength ent = sizeofFmeta + ent.datum.header.entSize then
    .ok (ent.datum.header, gdpfsLogEntDrain ent sizeofFmeta)
  else
    .error .corruptRecord

/-- `gdpfs_log_ent_read` of `sizeof(struct ft_node)` bytes. -/
def readFtNode (ent : LogEnt) : Option FtNode :=
  match ent.datum.payload with
  | .bytes _ => none
  | .nodes images =>
      let start := ent.position - sizeofFmeta
      if sizeofFmeta ≤ ent.position ∧ start % sizeofFtNode = 0 then
        images[start / sizeofFtNode]?
      else
        none

end Log

namespace FigTree

open Log

/-- The part of `subtree_get` that fetches a node from the log.  It goes through
the cache directory; `log` has the records that can be opened there, and any
other one fails the assertion. -/
def fetchNode
    (log : List LogRecord)
    (recno offset : Nat) : Except Fault FtNode :=
  match gdpfsLogEntOpen log recno with
  | none => .error .logRead
  | some ent => do
      let (entry, ent) ← readFmeta ent
      if entry.logentType = .chkpt then
        match readFtNode (gdpfsLogEntDrain ent offset) with
        | some node => .ok node
        | none => .error .corruptRecord
      else
        .error .notCheckpoint

/-- `subtree_get(&this->subtrees[i], log)`.  The source stores the fetched node
in the slot and does not set `inmemory`, so neither does the model. -/
def subtreeGet
    (log : List LogRecord)
    (this : Addr)
    (i : Nat) : FigM (Option Addr) := do
  let node ← loadNode this
  match node.subtrees[i]? with
  | none => throw .badAddress
  | some sptr =>
      if sptr.inmemory then
        pure sptr.st
      else do
        let fetched ← fetchNode log sptr.recno sptr.offset
        let st ← memAlloc fetched
        storeNode this
          { node with
            subtrees := node.subtrees.set i { sptr with st := some st } }
        pure (some st)

end FigTree
end Gdpfs
