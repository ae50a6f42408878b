import Gdpfs.File.Hits
import Gdpfs.FigTree.Reread

/-!
# Logs that hold a file

Everything that is left of a file when it is not open is its log.  This module
says what a log has to hold so that the file can be opened again, and that data
records and checkpoints keep it that way.
-/

namespace Gdpfs
namespace File

open Log FigTree Effect
open Cells (Owns Holds cell Store)

/-! ## What a log holds -/

/-- The log of a file that went through some steps: it holds the bytes and the
size of the plain file, and an index in its last checkpoint. -/
structure Durable (ops : List FileOp) (log : List LogRecord) : Prop where
  agree : ∀ x, x < (Plain.after ops).size →
    (Plain.after ops).bytes x = (Plain.ever ops).bytes x
  small : (Plain.after ops).size ≤ byteIndexMax
  bytes : ∀ x, content log x = (Plain.ever ops).bytes x
  size : (loadInfo log).fileSize = (Plain.after ops).size
  typed : log ≠ [] → (loadInfo log).fileType ≠ .new
  openable : Openable log
  filed : NodesFiled log

section Durable

variable {ops : List FileOp} {log : List LogRecord} {datum : LogRecord}
  {offset size : Nat}

theorem openable_nil : Openable [] :=
  ⟨fun _ impossible => absurd impossible List.not_mem_nil,
    fun _ impossible => absurd impossible List.not_mem_nil, Or.inl rfl⟩

theorem nodesFiled_nil : NodesFiled [] := by
  intro recno offset node fetches
  obtain ⟨datum, isDatum, _⟩ := fetchNode_ok fetches
  unfold recordAt at isDatum
  split at isDatum <;> cases isDatum

/-- A log without records. -/
theorem durable_nil : Durable [] [] where
  agree _ _ := rfl
  small := Nat.zero_le _
  bytes _ := rfl
  size := rfl
  typed impossible := absurd rfl impossible
  openable := openable_nil
  filed := nodesFiled_nil

/-- A step that writes nothing. -/
theorem Durable.same
    (durable : Durable ops log)
    (after : (Plain.after ops).step op = Plain.after ops)
    (ever : (Plain.ever ops).keep op = Plain.ever ops) :
    Durable (ops ++ [op]) log := by
  obtain ⟨agree, small, bytes, size, typed, openable, filed⟩ := durable
  refine ⟨?_, ?_, ?_, ?_, typed, openable, filed⟩
  · rw [Plain.after_concat, Plain.ever_concat, after, ever]
    exact agree
  · rw [Plain.after_concat, after]
    exact small
  · rw [Plain.ever_concat, ever]
    exact bytes
  · rw [Plain.after_concat, after]
    exact size

/-- Below the end of the file, the bytes of a log are those of the plain
file. -/
theorem Durable.slice_eq
    (durable : Durable ops log)
    (size offset : Nat) :
    slice (content log) offset
        (min size ((Plain.after ops).size - offset)) =
      (Plain.after ops).read size offset := by
  refine eq_slice (length_slice _ _ _) fun i inside => ?_
  rw [getElem?_slice _ _ inside, durable.bytes, durable.agree _ (by omega)]

/-! ## Records that are appended -/

theorem latestRecno_uncovered
    (uncovered : ∀ x, ¬covers datum x = true)
    (x : Nat) :
    latestRecno (log ++ [datum]) x = latestRecno log x := by
  rw [latestRecno_append, if_neg (uncovered x)]

/-- The index in the last checkpoint of a log is not changed by data. -/
theorem ChkptIndexes.append
    (index : ChkptIndexes log)
    (isData : datum.header.logentType = .data) :
    ChkptIndexes (log ++ [datum]) := by
  have notChkpt : datum.header.logentType ≠ .chkpt := by
    rw [isData]
    decide
  have same : lastChkpt (log ++ [datum]) = lastChkpt log := by
    rw [lastChkpt_concat, if_neg notChkpt]
  unfold ChkptIndexes
  rw [same]
  rcases index with isZero | ⟨header, nodes, h, tree, filed, nonempty, rep,
    sound, latest⟩
  · exact Or.inl isZero
  · have grown : log <+: log ++ [datum] := List.prefix_append _ _
    refine Or.inr ⟨header, nodes, h, tree, recordAt_grow grown filed, nonempty,
      Rep.grow grown rep, sound, ?_⟩
    rw [List.take_append_of_le_length (lastChkpt_le log)]
    exact latest

theorem IsData.written
    (isData : IsData datum contents origin) :
    Written datum := by
  refine ⟨?_, fun _ _ => ?_⟩
  · rw [isData.size, isData.payload]
    rfl
  · rw [isData.place]
    exact Int.natCast_nonneg origin

theorem Openable.append
    (openable : Openable log)
    (isData : IsData datum contents origin)
    (below : origin + contents.length ≤ byteIndexMax) :
    Openable (log ++ [datum]) := by
  have notChkpt : datum.header.logentType ≠ .chkpt := by
    rw [isData.type]
    decide
  refine ⟨?_, ?_, openable.index.append isData.type⟩
  · intro other member
    rcases List.mem_append.mp member with old | new
    · exact openable.written other old
    · rw [List.mem_singleton.mp new]
      exact isData.written
  · rw [afterChkpt_concat, if_neg notChkpt]
    intro other member
    rcases List.mem_append.mp member with old | new
    · exact openable.data other old
    · rw [List.mem_singleton.mp new]
      exact ⟨contents, origin, isData, below⟩

/-- An update that fits the past of a file is in its log. -/
theorem Durable.update
    {change : Update}
    {info : FileInfo}
    (durable : Durable ops log)
    (fits : Fits ops (.update change))
    (isInfo : info = loadInfo log)
    (nonempty : log ≠ []) :
    Durable (ops ++ [.update change])
      (log ++ [dataRecord (change.info info) change.buf change.offset]) := by
  obtain ⟨below, small⟩ := fits.small durable.small
  refine ⟨fun x inside => ?_, ?_, fun x => ?_, ?_, fun _ => ?_, ?_, ?_⟩
  · rw [Plain.after_concat] at inside ⊢
    rw [Plain.ever_concat]
    cases change with
    | write buf offset =>
        simp only [Plain.step, Plain.keep, Plain.write] at inside ⊢
        by_cases new : offset ≤ x ∧ x < offset + buf.length
        · rw [if_pos new, if_pos new]
        · rw [if_neg new, if_neg new]
          by_cases old : x < (Plain.after ops).size
          · exact durable.agree x old
          · rw [Plain.bytes_past (by omega), fits.2 x (by omega) (by omega)]
    | ftruncate size =>
        simp only [Plain.step, Plain.truncate] at inside
        rw [show size = 0 from fits] at inside
        exact absurd inside (Nat.not_lt_zero x)
    | setPerm perm => exact durable.agree x inside
  · rw [Plain.after_concat]
    exact small
  · rw [content_dataRecord, Plain.ever_concat, Plain.keep_update,
      durable.bytes]
  · rw [loadInfo_append, Plain.after_concat]
    exact fits.size_eq info (isInfo ▸ durable.size)
  · rw [loadInfo_append]
    have typed := durable.typed nonempty
    rw [← isInfo] at typed
    cases change <;> exact typed
  · exact durable.openable.append (isData_dataRecord _ _ _) below
  · exact durable.filed.append (Or.inl rfl)

/-- A file is created. -/
theorem Durable.create
    {type : FileType}
    (durable : Durable ops [])
    (known : type ≠ .new)
    (perm : Nat) :
    Durable ops [dataRecord ⟨0, type, perm⟩ [] 0] := by
  have bytes : ∀ x, content [dataRecord ⟨0, type, perm⟩ [] 0] x =
      content [] x := by
    intro x
    rw [← List.nil_append [dataRecord _ _ _], content_dataRecord,
      if_neg (by simp)]
  refine ⟨durable.agree, durable.small, fun x => ?_, durable.size, fun _ =>
    known, ?_, ?_⟩
  · rw [bytes]
    exact durable.bytes x
  · exact durable.openable.append (isData_dataRecord _ [] 0) (Nat.zero_le _)
  · exact durable.filed.append (Or.inl rfl)

/-- A checkpoint of an index that names the last record of every byte. -/
theorem Durable.chkpt
    {header : Fmeta}
    {nodes : List FtNode}
    {tree : Tree (h + 1)}
    (durable : Durable ops log)
    (isInfo : infoOf header = loadInfo log)
    (nonempty : log ≠ [])
    (stores : 0 < nodes.length)
    (entries : ∀ image ∈ nodes, EntriesOk image.entries)
    (stored : Rep (log ++ [chkptRecord header nodes]) (h + 1)
      (.log (log.length + 1, (nodes.length - 1) * sizeofFtNode)) tree 0)
    (latest : ∀ x, x < byteIndexMax →
      look (h + 1) tree x = (latestRecno log x).map Int.ofNat) :
    Durable ops (log ++ [chkptRecord header nodes]) := by
  have uncovered : ∀ x, ¬covers (chkptRecord header nodes) x = true := by
    intro x impossible
    cases impossible
  have isChkpt : (chkptRecord header nodes).header.logentType = .chkpt := rfl
  have filed : NodesFiled (log ++ [chkptRecord header nodes]) :=
    durable.filed.append (Or.inr ⟨header, nodes, rfl, entries⟩)
  have isLast : lastChkpt (log ++ [chkptRecord header nodes]) =
      log.length + 1 := by
    rw [lastChkpt_concat, if_pos isChkpt]
  have info : loadInfo (log ++ [chkptRecord header nodes]) = loadInfo log := by
    rw [loadInfo_append]
    exact isInfo
  refine ⟨durable.agree, durable.small, fun x => ?_, ?_, fun _ => ?_, ?_,
    filed⟩
  · rw [content_append, if_neg (uncovered x)]
    exact durable.bytes x
  · rw [info]
    exact durable.size
  · rw [info]
    exact durable.typed nonempty
  · refine ⟨?_, ?_, Or.inr ?_⟩
    · intro other member
      rcases List.mem_append.mp member with old | new
      · exact durable.openable.written other old
      · rw [List.mem_singleton.mp new]
        exact written_chkptRecord _ _
    · rw [afterChkpt_concat, if_pos isChkpt]
      exact fun _ impossible => absurd impossible List.not_mem_nil
    · rw [isLast]
      refine ⟨header, nodes, h, tree, (Files.append log _).filed, stores,
        stored, filed.sound rfl trivial stored, fun x inside => ?_⟩
      rw [List.take_of_length_le (by simp), latestRecno_uncovered uncovered]
      exact latest x inside

end Durable

end File
end Gdpfs
