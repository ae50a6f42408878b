import Mathlib.Data.List.Basic
import Mathlib.Logic.Function.Basic

/-!
# Log entries and their cache files (`gdpfs_log.c`)

An entry of a log is a datum of the GDP, whose buffer gives its bytes one after
the other, or a file of the local cache with a position.  The buffers are those
of the GDP library; a cache file is created before the record is fetched.  All
entries are of one log, which is mounted for reading.
-/

namespace Gdpfs
namespace EntCache

/-! ## Buffers of the GDP -/

/-- The functions of the GDP library for the buffer of a datum. -/
structure GdpBuf (β : Type) where
  /-- The buffer that `gdp_gcl_read` leaves. -/
  filled : List UInt8 → β
  getlength : β → Nat
  read : β → Nat → List UInt8 × β
  peek : β → Nat → List UInt8
  /-- The status, which is zero on success, and what is left. -/
  drain : β → Nat → Int × β

/-- A buffer hands out the bytes it was filled with, in order; `contents` are
those that are left. -/
structure GdpBuf.Lawful
    (gdpBuf : GdpBuf β)
    (contents : β → List UInt8) : Prop where
  filled : ∀ bytes, contents (gdpBuf.filled bytes) = bytes
  getlength : ∀ buf, gdpBuf.getlength buf = (contents buf).length
  read : ∀ buf size, (gdpBuf.read buf size).1 = (contents buf).take size ∧
    contents (gdpBuf.read buf size).2 = (contents buf).drop size
  peek : ∀ buf size, gdpBuf.peek buf size = (contents buf).take size
  drain : ∀ buf size, (gdpBuf.drain buf size).1 = 0 ∧
    contents (gdpBuf.drain buf size).2 = (contents buf).drop size

/-- Buffers as lists of the bytes that are left. -/
def listBuf : GdpBuf (List UInt8) where
  filled := id
  getlength := List.length
  read := fun buf size => (buf.take size, buf.drop size)
  peek := fun buf size => buf.take size
  drain := fun buf size => (0, buf.drop size)

theorem listBuf_lawful : listBuf.Lawful id where
  filled := fun _ => rfl
  getlength := fun _ => rfl
  read := fun _ _ => ⟨rfl, rfl⟩
  peek := fun _ _ => rfl
  drain := fun _ _ => ⟨rfl, rfl⟩

/-! ## Entries -/

/-- `gdpfs_log_ent_t`: an open cache file with its position, a cache file that
could not be opened (`cached_fd` is -1), or a datum. -/
inductive LogEnt (β : Type)
  | cached (file : List UInt8) (position : Nat)
  | unopened
  | datum (buf : β)

/-- The cache files of a log by record number. -/
abbrev CacheDir := Nat → Option (List UInt8)

/-- `gdp_gcl_read` of a record, which may fail. -/
def gclRead
    (records : Nat → Option (List UInt8))
    (recno : Nat)
    (reads : Bool) : Option (List UInt8) :=
  if reads then records recno else none

/-- How the calls that `gdpfs_log_ent_open` makes end. -/
structure Calls where
  /-- The `open` of the cache file fails with no `errno` but `ENOENT`. -/
  opens : Bool
  /-- `gdpfs_log_ent_init` has memory for a datum. -/
  inits : Bool
  /-- The cache file is made, and takes what is written to it. -/
  creates : Bool
  /-- `gdp_gcl_read` succeeds if there is such a record. -/
  reads : Bool
  deriving DecidableEq, Repr

/-- All calls succeed. -/
def Calls.succeed : Calls := ⟨true, true, true, true⟩

/-- Without a cache file, the record is fetched into a new one. -/
def Calls.fetch (calls : Calls) : Bool :=
  calls.opens && calls.inits

/-- `gdpfs_log_ent_open` of a record number that is not negative.  The entry is
missing if the status is an error; there is no result if an assertion fails. -/
def gdpfsLogEntOpen
    (gdpBuf : GdpBuf β)
    (records : Nat → Option (List UInt8))
    (recno : Nat)
    (bypassCache : Bool)
    (calls : Calls)
    (dir : CacheDir) : Option (Option (LogEnt β) × CacheDir) :=
  if bypassCache then
    if calls.inits then
      some ((gclRead records recno calls.reads).map fun bytes =>
        .datum (gdpBuf.filled bytes), dir)
    else some (none, dir)
  -- every `errno` but `ENOENT` is taken for success
  else if !calls.opens then some (some .unopened, dir)
  else
    match dir recno with
    | some file => some (some (.cached file 0), dir)
    | none =>
        if !calls.inits then some (none, dir)
        else if !calls.creates then none
        else
          match gclRead records recno calls.reads with
          | none => some (none, Function.update dir recno (some []))
          | some bytes =>
              some (some (.cached bytes 0),
                Function.update dir recno (some bytes))

/-- What an accessor returns and what it puts into the buffer of the caller. -/
structure Answer where
  count : Int
  bytes : List UInt8
  deriving DecidableEq, Repr

/-- A `size_t` as an `off_t`. -/
def offT (size : Nat) : Int :=
  if size < 9223372036854775808 then size else size - 18446744073709551616

section Accessors

variable (gdpBuf : GdpBuf β)

/-- `gdpfs_log_ent_length`; without an open file, `fstat` fails and what is
returned was never set. -/
def gdpfsLogEntLength : LogEnt β → Option Answer
  | .cached file _ => some ⟨file.length, []⟩
  | .unopened => none
  | .datum buf => some ⟨gdpBuf.getlength buf, []⟩

/-- `gdpfs_log_ent_read`, which asserts that the file is open; without a buffer
to read into, `read` of a cache file fails where it has bytes to copy. -/
def gdpfsLogEntRead (buffered : Bool) (size : Nat) :
    LogEnt β → Option (Answer × LogEnt β)
  | .cached file position =>
      let bytes := (file.drop position).take size
      if buffered then
        some (⟨bytes.length, bytes⟩, .cached file (position + bytes.length))
      else
        some (⟨if bytes.isEmpty then 0 else -1, []⟩, .cached file position)
  | .unopened => none
  | .datum buf =>
      if buffered then
        let (bytes, buf) := gdpBuf.read buf size
        some (⟨bytes.length, bytes⟩, .datum buf)
      else
        let (status, buf) := gdpBuf.drain buf size
        some (⟨if status = 0 then size else 0, []⟩, .datum buf)

/-- `gdpfs_log_ent_peek`. -/
def gdpfsLogEntPeek (size : Nat) : LogEnt β → Answer
  | .cached file position =>
      let bytes := (file.drop position).take size
      ⟨bytes.length, bytes⟩
  | .unopened => ⟨-1, []⟩
  | .datum buf =>
      let bytes := gdpBuf.peek buf size
      ⟨bytes.length, bytes⟩

/-- `gdpfs_log_ent_drain`. -/
def gdpfsLogEntDrain (size : Nat) : LogEnt β → Answer × LogEnt β
  | .cached file position =>
      let target := (position : Int) + offT size
      if 0 ≤ target ∧ target < 9223372036854775808 then
        (⟨0, []⟩, .cached file target.toNat)
      else (⟨-1, []⟩, .cached file position)
  | .unopened => (⟨-1, []⟩, .unopened)
  | .datum buf =>
      let (status, buf) := gdpBuf.drain buf size
      (⟨status, []⟩, .datum buf)

end Accessors

/-- A call of an accessor. -/
inductive Access
  | length
  | peek (size : Nat)
  | read (buffered : Bool) (size : Nat)
  | drain (size : Nat)
  deriving DecidableEq, Repr

/-- Call an accessor; nothing is known of a call that fails an assertion or
returns what was never set. -/
def Access.run (gdpBuf : GdpBuf β) (ent : LogEnt β) :
    Access → Option (Answer × LogEnt β)
  | .length => (gdpfsLogEntLength gdpBuf ent).map fun answer => (answer, ent)
  | .peek size => some (gdpfsLogEntPeek gdpBuf size ent, ent)
  | .read buffered size => gdpfsLogEntRead gdpBuf buffered size ent
  | .drain size => some (gdpfsLogEntDrain gdpBuf size ent)

/-- The answers to consecutive calls of accessors. -/
def answers (gdpBuf : GdpBuf β) :
    LogEnt β → List Access → Option (List Answer)
  | _, [] => some []
  | ent, access :: rest =>
      (access.run gdpBuf ent).bind fun (answer, next) =>
        (answers gdpBuf next rest).map (answer :: ·)

/-- The cache files after some calls of `gdpfs_log_ent_open` through the cache,
each with a record number, if none of them fails an assertion. -/
def opened
    (gdpBuf : GdpBuf β)
    (records : Nat → Option (List UInt8)) :
    List (Nat × Calls) → CacheDir → Option CacheDir
  | [], dir => some dir
  | (recno, calls) :: rest, dir =>
      (gdpfsLogEntOpen gdpBuf records recno false calls dir).bind
        fun (_, next) => opened gdpBuf records rest next

/-! ## The files in the cache -/

section Opened

variable {gdpBuf : GdpBuf β} {records : Nat → Option (List UInt8)}
  {recno : Nat} {dir next : CacheDir} {calls : Calls}

/-- A cache file that is there is opened, unless `open` fails. -/
theorem open_of_some
    (held : dir recno = some file) :
    gdpfsLogEntOpen gdpBuf records recno false calls dir =
      some (some (if calls.opens then .cached file 0 else .unopened),
        dir) := by
  rw [gdpfsLogEntOpen, if_neg Bool.false_ne_true, held]
  cases calls.opens with
  | false => rfl
  | true => rfl

/-- Without a cache file, one is made of what can be read. -/
theorem open_of_none
    (absent : dir recno = none)
    (fetch : calls.fetch = true) :
    gdpfsLogEntOpen gdpBuf records recno false calls dir =
      if calls.creates then
        some ((gclRead records recno calls.reads).map fun bytes =>
            .cached bytes 0,
          Function.update dir recno
            (some ((gclRead records recno calls.reads).getD [])))
      else none := by
  obtain ⟨opens, inits⟩ := Bool.and_eq_true_iff.mp fetch
  rw [gdpfsLogEntOpen, if_neg Bool.false_ne_true, absent, opens, inits]
  cases calls.creates with
  | false => rfl
  | true =>
      cases gclRead records recno calls.reads with
      | none => rfl
      | some bytes => rfl

/-- Nothing is made by a call that does not get to the record. -/
theorem open_of_not_fetch
    (absent : dir recno = none)
    (fetch : calls.fetch = false) :
    gdpfsLogEntOpen gdpBuf records recno false calls dir =
      some (if calls.opens then none else some .unopened, dir) := by
  rw [gdpfsLogEntOpen, if_neg Bool.false_ne_true, absent]
  unfold Calls.fetch at fetch
  cases opens : calls.opens with
  | false => rfl
  | true =>
      rw [opens, Bool.true_and] at fetch
      rw [fetch]
      rfl

/-- Opening a record does not concern the files of others. -/
theorem open_of_ne
    (other : recno ≠ recno')
    (opens : gdpfsLogEntOpen gdpBuf records recno' false calls dir =
      some (ent, next)) :
    next recno = dir recno := by
  cases held : dir recno' with
  | some file =>
      rw [open_of_some held] at opens
      cases opens
      rfl
  | none =>
      cases fetch : calls.fetch with
      | false =>
          rw [open_of_not_fetch held fetch] at opens
          cases opens
          rfl
      | true =>
          rw [open_of_none held fetch] at opens
          split at opens
          · cases opens
            exact Function.update_of_ne other _ _
          · cases opens

/-- A cache file that is there stays as it is. -/
theorem opened_of_some
    {each : List (Nat × Calls)}
    (held : dir recno = some file)
    (run : opened gdpBuf records each dir = some next) :
    next recno = some file := by
  induction each generalizing dir with
  | nil =>
      cases run
      exact held
  | cons call each inductionHypothesis =>
      obtain ⟨other, calls⟩ := call
      obtain ⟨⟨ent, between⟩, opens, rest⟩ := Option.bind_eq_some_iff.mp run
      refine inductionHypothesis ?_ rest
      by_cases same : recno = other
      · subst same
        rw [open_of_some held] at opens
        cases opens
        exact held
      · rw [open_of_ne same opens, held]

/-- The first call that fetches a record decides on its cache file. -/
theorem opened_of_none
    {each : List (Nat × Calls)}
    (absent : dir recno = none)
    (run : opened gdpBuf records each dir = some next) :
    next recno =
      (each.find? fun call => call.1 = recno ∧ call.2.fetch).map fun call =>
        (gclRead records recno call.2.reads).getD [] := by
  induction each generalizing dir with
  | nil =>
      cases run
      exact absent
  | cons call each inductionHypothesis =>
      obtain ⟨other, calls⟩ := call
      obtain ⟨⟨ent, between⟩, opens, rest⟩ := Option.bind_eq_some_iff.mp run
      rw [List.find?_cons]
      by_cases same : other = recno
      · subst same
        cases fetch : calls.fetch with
        | false =>
            rw [open_of_not_fetch absent fetch] at opens
            cases opens
            rw [decide_eq_false fun both => Bool.false_ne_true both.2]
            exact inductionHypothesis absent rest
        | true =>
            rw [open_of_none absent fetch] at opens
            split at opens
            · cases opens
              rw [decide_eq_true ⟨rfl, rfl⟩]
              exact opened_of_some (Function.update_self _ _ _) rest
            · cases opens
      · rw [decide_eq_false fun both => same both.1]
        apply inductionHypothesis _ rest
        rw [open_of_ne (Ne.symm same) opens, absent]

end Opened

/-! ## Reading cached entries -/

/-- Calls of accessors that treat a cache file of the given length like a datum:
the length is asked for before any bytes are consumed, reads have a buffer, and
the position stays an `off_t`. -/
def Tame (length : Nat) : (position : Nat) → List Access → Prop
  | _, [] => True
  | position, .length :: rest =>
      min position length = 0 ∧ Tame length position rest
  | position, .peek _ :: rest => Tame length position rest
  | position, .read buffered size :: rest =>
      buffered = true ∧
        Tame length (position + min size (length - position)) rest
  | position, .drain size :: rest =>
      position + size < 9223372036854775808 ∧
        Tame length (position + size) rest

section Answers

variable {gdpBuf : GdpBuf β} {contents : β → List UInt8}

theorem drop_consumed (file : List UInt8) (position size : Nat) :
    file.drop (position + min size (file.length - position)) =
      (file.drop position).drop size := by
  rw [List.drop_drop]
  by_cases short : size ≤ file.length - position
  · rw [Nat.min_eq_left short]
  · rw [Nat.min_eq_right (by omega), List.drop_of_length_le (by omega),
      List.drop_of_length_le (by omega)]

/-- A cache file at a position answers like a datum with the bytes from there
on. -/
theorem answers_cached
    (lawful : gdpBuf.Lawful contents)
    {file : List UInt8}
    (left : contents buf = file.drop position)
    (tame : Tame file.length position accesses) :
    answers gdpBuf (.cached file position) accesses =
      answers gdpBuf (.datum buf) accesses := by
  induction accesses generalizing position buf with
  | nil => rfl
  | cons access accesses inductionHypothesis =>
      rw [answers, answers]
      cases access with
      | length =>
          obtain ⟨start, rest⟩ := tame
          have same : file.length = gdpBuf.getlength buf := by
            rw [lawful.getlength, left, List.length_drop]
            omega
          simp only [Access.run, gdpfsLogEntLength, Option.map_some,
            Option.bind_some, same, inductionHypothesis left rest]
      | peek size =>
          simp only [Access.run, gdpfsLogEntPeek, lawful.peek, left,
            Option.bind_some, inductionHypothesis left tame]
      | read buffered size =>
          obtain ⟨rfl, rest⟩ := tame
          obtain ⟨bytes, after⟩ := lawful.read buf size
          simp only [Access.run, gdpfsLogEntRead, if_true, Option.bind_some,
            bytes, left]
          congr 1
          apply inductionHypothesis
          · rw [after, left, List.length_take, List.length_drop,
              drop_consumed]
          · rw [List.length_take, List.length_drop]
            exact rest
      | drain size =>
          obtain ⟨small, rest⟩ := tame
          obtain ⟨status, after⟩ := lawful.drain buf size
          have target : (position : Int) + offT size =
              ((position + size : Nat) : Int) := by
            rw [offT, if_pos (by omega)]
            omega
          simp only [Access.run, gdpfsLogEntDrain, Option.bind_some, target,
            status]
          rw [if_pos (by omega)]
          congr 1
          apply inductionHypothesis
          · rw [after, left, List.drop_drop, Int.toNat_natCast]
          · exact rest

end Answers

theorem read_of_gclRead
    (read : gclRead records recno reads = some bytes) :
    records recno = some bytes := by
  unfold gclRead at read
  split at read
  · exact read
  · cases read

/-- The entry of a call that returns one is the cache file, if `open` does not
fail. -/
theorem open_cached
    (opens : calls.opens = true)
    (faithful : ∀ file, dir recno = some file → records recno = some file)
    (returns : gdpfsLogEntOpen gdpBuf records recno false calls dir =
      some (some ent, next)) :
    ∃ bytes, records recno = some bytes ∧ ent = .cached bytes 0 := by
  cases held : dir recno with
  | some file =>
      rw [open_of_some held, opens, if_pos rfl] at returns
      cases returns
      exact ⟨file, faithful file held, rfl⟩
  | none =>
      cases fetch : calls.fetch with
      | false =>
          rw [open_of_not_fetch held fetch, opens] at returns
          cases returns
      | true =>
          rw [open_of_none held fetch] at returns
          split at returns
          · obtain ⟨found, _⟩ := Prod.mk.inj (Option.some.inj returns)
            obtain ⟨bytes, read, rfl⟩ := Option.map_eq_some_iff.mp found
            exact ⟨bytes, read_of_gclRead read, rfl⟩
          · cases returns

/-- The cache of records is faithful: if the first call that fetched a record
could read it, and the cache file can be opened, then an entry that is opened
through the cache answers tame calls of the accessors like the entry opened
without the cache. -/
theorem cached_entries_faithful
    {gdpBuf : GdpBuf β}
    {contents : β → List UInt8}
    (lawful : gdpBuf.Lawful contents)
    (records : Nat → Option (List UInt8))
    (before dir : CacheDir)
    (each : List (Nat × Calls))
    (run : opened gdpBuf records each before = some dir)
    (recno : Nat)
    (held : ∀ file, before recno = some file → records recno = some file)
    (first : before recno = none → ∀ call,
      each.find? (fun call => call.1 = recno ∧ call.2.fetch) = some call →
        (gclRead records recno call.2.reads).isSome = true)
    (calls : Calls)
    (opens : calls.opens = true)
    (returns : gdpfsLogEntOpen gdpBuf records recno false calls dir =
      some (some ent, next)) :
    ∃ bytes, records recno = some bytes ∧
      gdpfsLogEntOpen gdpBuf records recno true .succeed dir =
        some (some (.datum (gdpBuf.filled bytes)), dir) ∧
      ∀ accesses, Tame bytes.length 0 accesses →
        answers gdpBuf ent accesses =
          answers gdpBuf (.datum (gdpBuf.filled bytes)) accesses := by
  have faithful : ∀ file, dir recno = some file →
      records recno = some file := by
    intro file there
    cases early : before recno with
    | some old =>
        rw [opened_of_some early run, ← early] at there
        exact held file there
    | none =>
        rw [opened_of_none early run] at there
        obtain ⟨call, found, isFile⟩ := Option.map_eq_some_iff.mp there
        obtain ⟨bytes, read⟩ := Option.isSome_iff_exists.mp
          (first early call found)
        rw [read, Option.getD_some] at isFile
        rw [← isFile]
        exact read_of_gclRead read
  obtain ⟨bytes, isRecord, rfl⟩ := open_cached opens faithful returns
  refine ⟨bytes, isRecord, ?_, fun accesses tame => ?_⟩
  · unfold gdpfsLogEntOpen gclRead
    rw [isRecord]
    rfl
  · exact answers_cached lawful (lawful.filled bytes) tame

/-- A log with one record. -/
def oneRecord (recno : Nat) : Option (List UInt8) :=
  if recno = 1 then some [1, 2, 3] else none

/-- The record is in the cache. -/
def oneFile : CacheDir := Function.update (fun _ => none) 1 (some [1, 2, 3])

/-- The cache file cannot be opened, then it is made, and then the record is
opened again when the GDP does not answer any more. -/
theorem cached_entries_faithful_twice :
    ∃ bytes, oneRecord 1 = some bytes ∧
      gdpfsLogEntOpen listBuf oneRecord 1 true .succeed oneFile =
        some (some (.datum (listBuf.filled bytes)), oneFile) ∧
      ∀ accesses, Tame bytes.length 0 accesses →
        answers listBuf (.cached [1, 2, 3] 0) accesses =
          answers listBuf (.datum (listBuf.filled bytes)) accesses := by
  apply cached_entries_faithful listBuf_lawful oneRecord (fun _ => none)
    oneFile [(1, ⟨false, true, true, true⟩), (1, .succeed)] rfl 1 _ _
    ⟨true, true, true, false⟩ rfl rfl
  · intro file impossible
    cases impossible
  · intro _ call found
    cases found
    rfl

/-- A failed read leaves an empty cache file, which the next call takes for the
record; the length of a cache file is that of the whole record; and a cache file
that cannot be opened cannot be read. -/
theorem failed_read_is_cached :
    (∃ dir ent, opened listBuf oneRecord [(1, ⟨true, true, true, false⟩)]
        (fun _ => none) = some dir ∧
      gdpfsLogEntOpen listBuf oneRecord 1 false .succeed dir =
        some (some ent, dir) ∧
      answers listBuf ent [.length] ≠
        answers listBuf (.datum (listBuf.filled [1, 2, 3])) [.length]) ∧
    (∃ dir ent, gdpfsLogEntOpen listBuf oneRecord 1 false .succeed
        (fun _ => none) = some (some ent, dir) ∧
      answers listBuf ent [.read true 1, .length] ≠
        answers listBuf (.datum (listBuf.filled [1, 2, 3]))
          [.read true 1, .length]) ∧
    ∃ dir ent, gdpfsLogEntOpen listBuf oneRecord 1 false
        ⟨false, true, true, true⟩ (fun _ => none) = some (some ent, dir) ∧
      answers listBuf ent [.read true 1] ≠
        answers listBuf (.datum (listBuf.filled [1, 2, 3]))
          [.read true 1] := by
  refine ⟨⟨_, _, rfl, rfl, by decide⟩, ⟨_, _, rfl, by decide⟩,
    ⟨_, _, rfl, by decide⟩⟩

end EntCache
end Gdpfs
