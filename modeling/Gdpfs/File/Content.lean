import Gdpfs.File.Ledger
import Gdpfs.FigTree.Refine.Read

/-!
# What a log says a file contains

The last record that covers a byte gives it its value; a byte that no record
covers is zero.  A read that goes through an index that names, for every byte,
the last record that covers it returns these bytes.
-/

namespace Gdpfs
namespace File

open Log FigTree Effect
open Cells (Owns Holds cell Store)

/-! ## The content of a log -/

/-- Whether a record holds a data byte of the file. -/
def covers (datum : LogRecord) (x : Nat) : Bool :=
  match datum.payload with
  | .bytes contents =>
      datum.header.entOffset ≤ x &&
        x < datum.header.entOffset + contents.length
  | .nodes _ => false

/-- The data byte that a record holds. -/
def byteOf (datum : LogRecord) (x : Nat) : UInt8 :=
  match datum.payload with
  | .bytes contents => contents.getD (x - datum.header.entOffset).toNat 0
  | .nodes _ => 0

/-- The number of the newest record that covers a byte; the newest record is
listed first. -/
def newestCover (x : Nat) : List LogRecord → Option Nat
  | [] => none
  | datum :: older =>
      if covers datum x then some (older.length + 1) else newestCover x older

/-- The number of the last record of a log that covers a byte. -/
def latestRecno (log : List LogRecord) (x : Nat) : Option Nat :=
  newestCover x log.reverse

/-- The byte that a log gives a file. -/
def content (log : List LogRecord) (x : Nat) : UInt8 :=
  match (latestRecno log x).bind (recordAt log) with
  | some datum => byteOf datum x
  | none => 0

theorem latestRecno_append
    (log : List LogRecord)
    (datum : LogRecord)
    (x : Nat) :
    latestRecno (log ++ [datum]) x =
      if covers datum x then some (log.length + 1) else latestRecno log x := by
  simp [latestRecno, newestCover]

theorem newestCover_spec
    {newest : List LogRecord}
    (found : newestCover x newest = some recno) :
    ∃ datum, recordAt newest.reverse recno = some datum ∧
      covers datum x = true := by
  induction newest with
  | nil => cases found
  | cons datum older inductionHypothesis =>
      rw [newestCover] at found
      rw [List.reverse_cons]
      split at found
      · next here =>
          cases found
          exact ⟨datum, by simp [recordAt], here⟩
      · obtain ⟨other, isOther, covered⟩ := inductionHypothesis found
        exact ⟨other, recordAt_grow (List.prefix_append _ _) isOther,
          covered⟩

/-- The last record that covers a byte exists and covers it. -/
theorem recordAt_latestRecno
    {log : List LogRecord}
    (found : latestRecno log x = some recno) :
    ∃ datum, recordAt log recno = some datum ∧ covers datum x = true ∧
      content log x = byteOf datum x := by
  obtain ⟨datum, isDatum, covered⟩ := newestCover_spec found
  rw [List.reverse_reverse] at isDatum
  exact ⟨datum, isDatum, covered, by rw [content, found]; simp [isDatum]⟩

theorem content_of_none
    {log : List LogRecord}
    (none : latestRecno log x = none) :
    content log x = 0 := by
  rw [content, none]
  rfl

/-- A record gives the bytes it covers their values, and leaves the others. -/
theorem content_append
    (log : List LogRecord)
    (datum : LogRecord)
    (x : Nat) :
    content (log ++ [datum]) x =
      if covers datum x then byteOf datum x else content log x := by
  rw [content, latestRecno_append]
  by_cases covered : covers datum x = true
  · rw [if_pos covered, if_pos covered]
    simp [recordAt]
  · rw [if_neg covered, if_neg covered]
    cases found : latestRecno log x with
    | none =>
        rw [content_of_none found]
        rfl
    | some recno =>
        obtain ⟨other, isOther, _, same⟩ := recordAt_latestRecno found
        have later := recordAt_grow (List.prefix_append log [datum]) isOther
        simp [later, same]

/-- A record that the file code wrote: its header gives the size of what
follows, and data has a place in the file. -/
structure Written (datum : LogRecord) : Prop where
  size : datum.header.entSize = datum.payload.size
  place : ∀ contents, datum.payload = .bytes contents →
    0 ≤ datum.header.entOffset

theorem written_dataRecord
    (info : FileInfo)
    (buf : List UInt8)
    (offset : Nat) :
    Written (dataRecord info buf offset) :=
  ⟨rfl, fun _ _ => Int.natCast_nonneg offset⟩

theorem written_chkptRecord (header : Fmeta) (nodes : List FtNode) :
    Written (chkptRecord header nodes) :=
  ⟨rfl, fun _ impossible => by cases impossible⟩

/-- A record that covers a byte is data with a place in the file. -/
theorem Written.of_covers
    {datum : LogRecord}
    (written : Written datum)
    (covered : covers datum x = true) :
    ∃ contents, ∃ origin : Nat, datum.payload = .bytes contents ∧
      datum.header.entOffset = (origin : Int) ∧
      datum.header.entSize = contents.length ∧ origin ≤ x ∧
      x < origin + contents.length := by
  unfold covers at covered
  cases isBytes : datum.payload with
  | nodes images =>
      rw [isBytes] at covered
      cases covered
  | bytes contents =>
      simp only [isBytes, Bool.and_eq_true, decide_eq_true_eq] at covered
      obtain ⟨origin, isPlace⟩ := Int.eq_ofNat_of_zero_le
        (written.place contents isBytes)
      refine ⟨contents, origin, rfl, isPlace, ?_, by omega, by omega⟩
      rw [written.size, isBytes]
      rfl

theorem byteOf_eq
    {datum : LogRecord}
    {origin : Nat}
    (isBytes : datum.payload = .bytes contents)
    (isPlace : datum.header.entOffset = (origin : Int))
    (lower : origin ≤ x) :
    byteOf datum x = contents.getD (x - origin) 0 := by
  have index : ((x : Int) - (origin : Int)).toNat = x - origin := by omega
  simp only [byteOf, isBytes, isPlace, index]

theorem covers_eq
    {datum : LogRecord}
    {origin : Nat}
    (isBytes : datum.payload = .bytes contents)
    (isPlace : datum.header.entOffset = (origin : Int)) :
    covers datum x = true ↔ origin ≤ x ∧ x < origin + contents.length := by
  simp only [covers, isBytes, isPlace, Bool.and_eq_true, decide_eq_true_eq]
  omega

/-- Consecutive bytes of a file. -/
def slice (bytes : Nat → UInt8) (offset size : Nat) : List UInt8 :=
  (List.range size).map fun i => bytes (offset + i)

theorem length_slice (bytes : Nat → UInt8) (offset size : Nat) :
    (slice bytes offset size).length = size := by
  simp [slice]

theorem getElem?_slice
    (bytes : Nat → UInt8)
    (offset : Nat)
    (inside : i < size) :
    (slice bytes offset size)[i]? = some (bytes (offset + i)) := by
  simp [slice, inside]

theorem eq_slice
    {buf : List UInt8}
    {bytes : Nat → UInt8}
    (length : buf.length = size)
    (each : ∀ i, i < size → buf[i]? = some (bytes (offset + i))) :
    buf = slice bytes offset size := by
  refine List.ext_getElem? fun i => ?_
  by_cases inside : i < size
  · rw [each i inside, getElem?_slice bytes offset inside]
  · rw [List.getElem?_eq_none (by omega), List.getElem?_eq_none (by
      rw [length_slice]; omega)]

/-! ## The buffer of a read -/

/-- Replace bytes of a buffer. -/
def patch (buf : List UInt8) (position : Nat) (bytes : List UInt8) :
    List UInt8 :=
  buf.take position ++ bytes ++ buf.drop (position + bytes.length)

theorem length_patch
    {buf bytes : List UInt8}
    (fits : position + bytes.length ≤ buf.length) :
    (patch buf position bytes).length = buf.length := by
  simp only [patch, List.length_append, List.length_take, List.length_drop]
  omega

theorem getElem?_patch
    {buf bytes : List UInt8}
    (fits : position + bytes.length ≤ buf.length)
    (i : Nat) :
    (patch buf position bytes)[i]? =
      if position ≤ i ∧ i < position + bytes.length then bytes[i - position]?
      else buf[i]? := by
  have before : (buf.take position).length = position := by
    rw [List.length_take]
    omega
  rw [patch, List.append_assoc]
  by_cases early : i < position
  · rw [List.getElem?_append_left (by omega), if_neg (by omega),
      List.getElem?_take_of_lt early]
  · rw [List.getElem?_append_right (by omega), before]
    by_cases inside : i < position + bytes.length
    · rw [List.getElem?_append_left (by omega), if_pos (by omega)]
    · rw [List.getElem?_append_right (by omega), if_neg (by omega),
        List.getElem?_drop]
      congr 1
      omega

section Read

variable {env : Env} {world : World} {offset size : Nat}
  {buf bytes : List UInt8}

theorem run_bufferWrite
    (fits : position + bytes.length ≤ buf.length) :
    (bufferWrite buf (position : Int) bytes).run world =
      .ok (patch buf position bytes, world) := by
  rw [bufferWrite, if_pos (by omega)]
  rfl

/-- A fig of the index inside the range of a read, whose record holds its
bytes. -/
structure FigReads
    (log : List LogRecord)
    (offset size : Nat)
    (fig : FtEnt) : Prop where
  lower : offset ≤ fig.irange.left
  ends : fig.irange.left ≤ fig.irange.right
  upper : fig.irange.right < offset + size
  small : fig.irange.right ≤ byteIndexMax
  latest : ∀ x, fig.irange.left ≤ x → x ≤ fig.irange.right →
    ∃ recno : Nat, fig.value = recno ∧ latestRecno log x = some recno

theorem sizeOfInt_sub
    {large little : Nat}
    (le : little ≤ large)
    (bounded : large ≤ byteIndexMax) :
    sizeOfInt ((large : Int) - (little : Int)) = large - little := by
  have small : (large : Int) - (little : Int) < 18446744073709551616 := by
    simp only [byteIndexMax] at bounded
    omega
  rw [sizeOfInt, Int.emod_eq_of_lt (by omega) small]
  omega

/-- The body of the loop puts the bytes of the fig into the buffer. -/
theorem ensures_readFig
    (written : ∀ datum ∈ world.log, Written datum)
    (reads : FigReads world.log offset size fig)
    (length : buf.length = size) :
    Ensures (readFig env offset fig buf)
      (fun buf' next => next = world ∧ buf'.length = size ∧
        ∀ i, i < size → buf'[i]? =
          if fig.irange.left ≤ offset + i ∧ offset + i ≤ fig.irange.right then
            some (content world.log (offset + i))
          else buf[i]?) world := by
  obtain ⟨lower, ends, upper, small, latest⟩ := reads
  obtain ⟨recno, isValue, first⟩ := latest fig.irange.left le_rfl ends
  obtain ⟨datum, isDatum, covered, _⟩ := recordAt_latestRecno first
  have member : datum ∈ world.log := by
    unfold recordAt at isDatum
    split at isDatum
    · cases isDatum
    · exact List.mem_of_getElem? isDatum
  obtain ⟨contents, origin, isBytes, isOrigin, isSize, starts, _⟩ :=
    (written datum member).of_covers covered
  have each : ∀ x, fig.irange.left ≤ x → x ≤ fig.irange.right →
      x < origin + contents.length ∧
        content world.log x = contents.getD (x - origin) 0 := by
    intro x after before
    obtain ⟨recno', isValue', same⟩ := latest x after before
    obtain rfl : recno' = recno := by omega
    obtain ⟨datum', isDatum', covered', isByte⟩ := recordAt_latestRecno same
    cases isDatum.symm.trans isDatum'
    refine ⟨((covers_eq isBytes isOrigin).mp covered').2, ?_⟩
    rw [isByte, byteOf_eq isBytes isOrigin (by omega)]
  have positive : 0 < recno := by
    refine Nat.pos_of_ne_zero fun isZero => ?_
    rw [recordAt, if_pos isZero] at isDatum
    cases isDatum
  have reaches := (each fig.irange.right ends le_rfl).1
  have taken : ((contents.drop (fig.irange.left - origin)).take
      (fig.irange.right + 1 - fig.irange.left)).length =
      fig.irange.right + 1 - fig.irange.left := by
    rw [List.length_take, List.length_drop]
    omega
  have opens : gdpfsLogEntOpen world.log fig.value.toNat =
      some ⟨datum, 0⟩ := by
    rw [isValue, Int.toNat_natCast, gdpfsLogEntOpen, isDatum]
    rfl
  have header : readFmeta ⟨datum, 0⟩ =
      .ok (datum.header, ⟨datum, sizeofFmeta⟩) := by
    rw [readFmeta, if_pos (by
      rw [gdpfsLogEntLength, isBytes, isSize]
      rfl)]
    rfl
  rw [readFig, ensures_bind, ensures_get]
  dsimp only
  rw [if_neg (by omega), if_pos (by omega), opens]
  dsimp only
  rw [header]
  dsimp only
  rw [isOrigin, sizeOfInt_sub starts (ends.trans small)]
  have place : (fig.irange.left : Int) - offset =
      ((fig.irange.left - offset : Nat) : Int) := by omega
  have drained : (readBytes (gdpfsLogEntDrain ⟨datum, sizeofFmeta⟩
      (fig.irange.left - origin))
      (fig.irange.right + 1 - fig.irange.left)).run world =
      .ok ((contents.drop (fig.irange.left - origin)).take
        (fig.irange.right + 1 - fig.irange.left), world) := by
    simp only [readBytes, gdpfsLogEntDrain, isBytes, Nat.add_sub_cancel_left]
    rfl
  have fits : fig.irange.left - offset + ((contents.drop
      (fig.irange.left - origin)).take
      (fig.irange.right + 1 - fig.irange.left)).length ≤ buf.length := by
    omega
  rw [ensures_run_bind drained, if_pos taken, place,
    ensures_of_run (run_bufferWrite fits)]
  refine ⟨rfl, (length_patch fits).trans length, fun i inside => ?_⟩
  rw [getElem?_patch fits, taken]
  by_cases within : fig.irange.left ≤ offset + i ∧
      offset + i ≤ fig.irange.right
  · obtain ⟨bound, isByte⟩ := each (offset + i) within.1 within.2
    rw [if_pos within, if_pos (by omega), isByte,
      List.getElem?_take_of_lt (by omega), List.getElem?_drop]
    rw [show fig.irange.left - origin + (i - (fig.irange.left - offset)) =
      offset + i - origin by omega]
    rw [List.getD_eq_getElem?_getD, List.getElem?_eq_getElem (by omega)]
    rfl
  · rw [if_neg within, if_neg (by omega)]

theorem run_onTree
    {action : FigM α}
    {file : GdpfsFile}
    {log : List LogRecord}
    {cache : CacheFile}
    (run : action.run heap = .ok (value, heap')) :
    (onTree action).run ⟨file, heap, log, cache⟩ =
      .ok (value, ⟨file, heap', log, cache⟩) := by
  rw [onTree, StateT.run_bind]
  simp only [StateT.run_get, pure_bind, run]
  rfl

/-- Some fig covers the byte. -/
def Covered (figs : List FtEnt) (x : Nat) : Prop :=
  ∃ fig ∈ figs, fig.irange.left ≤ x ∧ x ≤ fig.irange.right

/-- The loop puts the bytes of all figs into the buffer. -/
theorem ensures_readFigs
    {fuel : Nat}
    (written : ∀ datum ∈ world.log, Written datum)
    (yields : Yields (env.fetchable world.log) iter heap figs final)
    (reads : ∀ fig ∈ figs, FigReads world.log offset size fig)
    (enough : figs.length < fuel)
    (length : buf.length = size) :
    Ensures (readFigs env offset fuel iter buf)
      (fun buf' next => next = { world with heap := final } ∧
        buf'.length = size ∧ ∀ i, i < size →
          (Covered figs (offset + i) →
            buf'[i]? = some (content world.log (offset + i))) ∧
          (¬Covered figs (offset + i) → buf'[i]? = buf[i]?))
      { world with heap := heap } := by
  induction yields generalizing fuel buf with
  | done run =>
      obtain ⟨fuel, rfl⟩ := Nat.exists_eq_succ_of_ne_zero
        (Nat.ne_of_gt (Nat.zero_lt_of_lt enough))
      rw [readFigs, ensures_bind, ensures_get,
        ensures_run_bind (run_onTree run)]
      dsimp only
      rw [ensures_pure]
      refine ⟨rfl, length, fun i _ => ⟨?_, fun _ => rfl⟩⟩
      rintro ⟨fig, member, _⟩
      cases member
  | @next _ _ fig _ _ figs _ run rest inductionHypothesis =>
      obtain ⟨fuel, rfl⟩ := Nat.exists_eq_succ_of_ne_zero
        (Nat.ne_of_gt (Nat.zero_lt_of_lt enough))
      rw [readFigs, ensures_bind, ensures_get,
        ensures_run_bind (run_onTree run)]
      dsimp only
      refine Ensures.bind (ensures_readFig written
        (reads _ List.mem_cons_self) length) ?_
      rintro buf' _ ⟨rfl, length', first⟩
      refine (inductionHypothesis
        (fun fig member => reads fig (List.mem_cons_of_mem _ member))
        (Nat.lt_of_succ_lt_succ enough) length').mono ?_
      rintro buf'' next ⟨isNext, length'', others⟩
      refine ⟨isNext, length'', fun i inside => ?_⟩
      obtain ⟨covered, uncovered⟩ := others i inside
      have here := first i inside
      by_cases later : Covered figs (offset + i)
      · refine ⟨fun _ => covered later, fun none => ?_⟩
        obtain ⟨other, member, within⟩ := later
        exact absurd ⟨other, List.mem_cons_of_mem _ member, within⟩ none
      · rw [uncovered later, here]
        constructor
        · rintro ⟨other, member, within⟩
          rcases List.mem_cons.mp member with rfl | inRest
          · rw [if_pos within]
          · exact absurd ⟨other, inRest, within⟩ later
        · intro none
          rw [if_neg fun within => none ⟨fig, List.mem_cons_self, within⟩]

theorem Spread.length_le
    (spread : Spread low high figs) :
    figs.length ≤ high - low := by
  induction figs generalizing low with
  | nil => exact Nat.zero_le _
  | cons fig figs inductionHypothesis =>
      obtain ⟨lower, ends, upper⟩ := spread.within fig List.mem_cons_self
      have apart := (List.pairwise_cons.mp spread.increasing).1
      have rest : Spread (fig.irange.right + 1) high figs := by
        refine ⟨fun other member => ?_,
          (List.pairwise_cons.mp spread.increasing).2⟩
        have := apart other member
        have := spread.within other (List.mem_cons_of_mem _ member)
        omega
      have := inductionHypothesis rest
      rw [List.length_cons]
      omega

/-- An index that names the last record of every byte below a limit. -/
structure Names
    (env : Env)
    (partly : Prop)
    (limit : Nat)
    (world : World)
    (this : Figtree)
    (fig : Fig) : Prop where
  isTree : world.file.figtree = some this
  seen : Seen partly (env.fetchable world.log) world.heap (fig.height + 1)
    (.memory (some this.root)) fig.tree
  sorted : Sorted (fig.height + 1) fig.tree
  latest : ∀ x, x < limit →
    fig.look x = (latestRecno world.log x).map Int.ofNat
  written : ∀ datum ∈ world.log, Written datum

/-- A read through the index returns what the log says, and may leave fetched
nodes in the heap. -/
theorem ensures_readIndex
    {partly : Prop}
    {fig : Fig}
    (names : Names env partly limit world this fig)
    (bounded : limit ≤ byteIndexEnd)
    (nonempty : 0 < size)
    (below : offset + size ≤ limit) :
    Ensures (readIndex env size offset)
      (fun buf next => Kept partly world.heap next.heap ∧
        next = { world with heap := next.heap } ∧
        buf = slice (content world.log) offset size) world := by
  have edge : byteIndexEnd = 4294967296 := rfl
  have start : byteIndex offset = offset := Nat.mod_eq_of_lt (by omega)
  have stop : byteIndex (offset + size - 1) = offset + size - 1 :=
    Nat.mod_eq_of_lt (by omega)
  have last : offset + size - 1 ≤ byteIndexMax := by
    simp only [byteIndexEnd] at bounded
    omega
  obtain ⟨iter, next, figs, final, run, yields, kept, kept', spread,
    agrees⟩ := reads_figs names.seen names.sorted
      (show offset ≤ offset + size - 1 by omega) last
  have reads : ∀ fig ∈ figs, FigReads world.log offset size fig := by
    intro found member
    obtain ⟨lower, ends, upper⟩ := spread.within found member
    refine ⟨lower, ends, by omega, by omega, fun x after before => ?_⟩
    have gives : Gives figs x found.value :=
      ⟨found, member, after, before, rfl⟩
    have looked := (agrees x found.value (by omega) (by omega)).mp gives
    rw [names.latest x (by omega), Option.map_eq_some_iff] at looked
    obtain ⟨recno, isRecno, isValue⟩ := looked
    exact ⟨recno, isValue.symm, isRecno⟩
  rw [readIndex, ensures_bind, ensures_get, names.isTree]
  dsimp only
  rw [start, stop, ensures_run_bind (run_onTree run)]
  have count := Spread.length_le spread
  refine (ensures_readFigs names.written yields reads
    (show figs.length < size + 1 by omega) (List.length_replicate)).mono ?_
  rintro buf after ⟨rfl, length, each⟩
  refine ⟨kept', rfl, eq_slice length fun i inside => ?_⟩
  by_cases covered : Covered figs (offset + i)
  · exact (each i inside).1 covered
  · rw [(each i inside).2 covered]
    have none : latestRecno world.log (offset + i) = none := by
      cases found : latestRecno world.log (offset + i) with
      | none => rfl
      | some recno =>
          have looked : fig.look (offset + i) = some (Int.ofNat recno) := by
            rw [names.latest _ (by omega), found]
            rfl
          obtain ⟨hit, member, after, before, _⟩ :=
            (agrees _ _ (by omega) (by omega)).mpr looked
          exact absurd ⟨hit, member, after, before⟩ covered
    rw [content_of_none none]
    simp [inside]

end Read

end File
end Gdpfs
