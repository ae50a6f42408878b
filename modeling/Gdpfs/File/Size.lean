import Gdpfs.File.Plain
import Gdpfs.FigTree.Edge

/-!
# Sizes and offsets

The file layer counts bytes with 64 bits and its index with 32, and
`gdpfs_file_ftruncate` does not use the size that it is given.
-/

namespace Gdpfs
namespace File

open Log FigTree Effect

variable {env : Env} {world : World} {offset size x : Nat}

/-! ## Offsets as byte indices -/

/-- A step of a file that is only written: it stays within 4 GiB, and cuts no
entry of the index that ends at the last byte index and has entries in the
subtree on its right. -/
def StaysApart : FileOp → World → Prop
  | .update (.write buf offset), world =>
      offset + buf.length ≤ byteIndexEnd ∧
        (0 < buf.length → world.file.figtree.all (fun this =>
          !ftCutsEdge world.heap this offset (offset + buf.length - 1)) = true)
  | .update (.setPerm _), _ => True
  | .read size offset, _ => size + offset < 18446744073709551616
  | .appended, _ => True
  | _, _ => False

instance : ∀ op world, Decidable (StaysApart op world)
  | .update (.write buf offset), world =>
      inferInstanceAs (Decidable (offset + buf.length ≤ byteIndexEnd ∧
        (0 < buf.length → world.file.figtree.all (fun this =>
          !ftCutsEdge world.heap this offset (offset + buf.length - 1)) =
            true)))
  | .update (.ftruncate _), _ => .isFalse id
  | .update (.setPerm _), _ => .isTrue trivial
  | .read size offset, _ =>
      inferInstanceAs (Decidable (size + offset < 18446744073709551616))
  | .appended, _ => .isTrue trivial
  | .opens _, _ => .isFalse id
  | .setInfo _, _ => .isFalse id
  | .chkpt, _ => .isFalse id
  | .close, _ => .isFalse id
  | .release, _ => .isFalse id

/-- A file that was created and only written: its index is in step with its
log, and nothing was written past its end. -/
structure InStride (env : Env) (world : World) : Prop where
  tracks : ∃ this fig, Tracks env uptoMax world this fig
  valid : world.file.infoCacheValid = true
  small : world.file.infoCache.fileSize ≤ byteIndexEnd
  past : ∀ x, world.file.infoCache.fileSize ≤ x → content world.log x = 0

/-- A read returns bytes of the log. -/
theorem InStride.ensures_doRead
    (inStride : InStride env world)
    (noCache : env.useCache = false)
    (bounded : size + offset < 18446744073709551616) :
    Ensures (doRead env size offset)
      (fun bytes next => next = world ∧
        bytes = slice (content world.log) offset
          (min size (world.file.infoCache.fileSize - offset))) world := by
  obtain ⟨this, fig, tracks⟩ := inStride.tracks
  have info : world.info = world.file.infoCache := by
    rw [World.info, if_pos inStride.valid]
  have withInfo : world.withInfo world.info = world := by
    rw [info, World.withInfo, ← inStride.valid]
  have filled : ∀ buf, world.fillCache env buf offset = world := by
    intro buf
    simp [World.fillCache, noCache]
  rw [doRead, ensures_run_bind (run_getInfoRaw _), withInfo, info]
  rcases readSize_eq world.file.infoCache.fileSize bounded with
    ⟨isNone, isZero⟩ | isSome
  · rw [isNone]
    dsimp only
    rw [ensures_pure, isZero]
    exact ⟨rfl, rfl⟩
  · have missed : getCache env world.file.newFile world.cache
        (min size (world.file.infoCache.fileSize - offset)) offset = none := by
      simp [getCache, noCache]
    rw [isSome]
    dsimp only
    rw [ensures_bind, ensures_get, missed]
    dsimp only
    by_cases nonempty :
        0 < min size (world.file.infoCache.fileSize - offset)
    · have small := inStride.small
      rw [if_pos nonempty]
      refine Ensures.bind (ensures_readIndex tracks.names le_rfl nonempty
        (show _ ≤ byteIndexEnd by omega)) ?_
      rintro buf next ⟨kept, isNext, rfl⟩
      rw [kept.same id] at isNext
      rw [isNext, ensures_run_bind (run_gdpfsFileFillCache _ _ _ _),
        ensures_pure]
      exact ⟨filled _, rfl⟩
    · rw [if_neg nonempty, ensures_pure, Nat.eq_zero_of_not_pos nonempty]
      exact ⟨rfl, rfl⟩

theorem limit_of_apart
    {change : Update}
    (apart : StaysApart (.update change) world) :
    change.offset + change.buf.length ≤ byteIndexEnd := by
  cases change with
  | write buf offset => exact apart.1
  | ftruncate size => exact apart.elim
  | setPerm perm => exact Nat.zero_le _

/-- What stays apart cuts no entry at the edge of the index. -/
theorem Tracks.edgeClear_of_apart
    {this : Figtree}
    {fig : Fig}
    {change : Update}
    (tracks : Tracks env uptoMax world this fig)
    (apart : StaysApart (.update change) world)
    (nonempty : 0 < change.buf.length) :
    fig.EdgeClear (writeRange change.offset change.buf.length) := by
  cases change with
  | write buf offset =>
      have some : 0 < buf.length := nonempty
      have clear := apart.2 some
      rw [tracks.isTree, Option.all_some, Bool.not_eq_true'] at clear
      have ends : offset ≤ offset + buf.length - 1 := by omega
      have upper : offset + buf.length - 1 < uptoMax.limit :=
        Nat.lt_of_lt_of_le (by omega) apart.1
      exact tracks.sound.edgeClear_of_cuts tracks.holds ends upper clear
  | ftruncate size => exact apart.elim
  | setPerm perm => cases nonempty

/-- An update that stays apart makes a file no shorter, and long enough for what
it writes. -/
theorem fileSize_of_apart
    {change : Update}
    (apart : StaysApart (.update change) world)
    (info : FileInfo) :
    (change.info info).fileSize =
      max info.fileSize (change.offset + change.buf.length) := by
  cases change with
  | write buf offset =>
      have upper : offset + buf.length ≤ 4294967296 := apart.1
      have small : offset + buf.length < 18446744073709551616 := by omega
      simp only [Update.info, size64_of_lt small]
      rfl
  | ftruncate size => exact apart.elim
  | setPerm perm => exact (Nat.max_eq_left (Nat.zero_le _)).symm

/-- An update that stays apart appends its record and keeps the file. -/
theorem InStride.ensures_update
    {change : Update}
    (inStride : InStride env world)
    (takes : env.takes true = true)
    (apart : StaysApart (.update change) world) :
    Ensures (change.run env true)
      (fun _ next => InStride env next ∧
        next.log = world.log ++ [dataRecord (change.info world.info)
          change.buf change.offset]) world := by
  obtain ⟨this, fig, tracks⟩ := inStride.tracks
  have info : world.info = world.file.infoCache := by
    rw [World.info, if_pos inStride.valid]
  have below := limit_of_apart apart
  have way : 0 < change.buf.length →
      fig.wayLoaded (writeRange change.offset change.buf.length) = true := by
    intro nonempty
    have ends : change.offset ≤ change.offset + change.buf.length - 1 := by
      omega
    have upper : change.offset + change.buf.length - 1 < uptoMax.limit :=
      Nat.lt_of_lt_of_le (by omega) below
    exact tracks.sound.wayLoaded id rfl ends upper
      (tracks.edgeClear_of_apart apart nonempty)
  refine (File.ensures_update tracks takes change
    (fun nonempty => Or.inr (tracks.edgeClear_of_apart apart nonempty))
    below way).mono ?_
  rintro _ next ⟨this', fig', heap, isNext, isLog, tracks'⟩
  have isInfo : next.file.infoCache = change.info world.file.infoCache := by
    rw [isNext, ← info]
    rfl
  have grows := fileSize_of_apart apart world.file.infoCache
  refine ⟨⟨⟨this', fig', tracks'⟩, ?_, ?_, fun x past => ?_⟩, isLog⟩
  · rw [isNext]
    rfl
  · rw [isInfo, grows]
    exact Nat.max_le.mpr ⟨inStride.small, below⟩
  · rw [isInfo, grows] at past
    rw [isLog, content_dataRecord, if_neg (by omega)]
    exact inStride.past x (by omega)

/-- A step that stays apart keeps the file. -/
theorem InStride.allows_step
    {op : FileOp}
    (inStride : InStride env world)
    (noCache : env.useCache = false)
    (takes : env.takes true = true)
    (apart : StaysApart op world) :
    Allows (op.run env true) (fun _ next => InStride env next) world := by
  cases op with
  | update change =>
      exact (inStride.ensures_update takes apart).allows.mono
        fun _ _ kept => kept.1
  | read size offset =>
      refine (inStride.ensures_doRead noCache apart).allows.bind ?_
      rintro _ _ ⟨rfl, _⟩
      exact allows_pure.mpr inStride
  | appended =>
      obtain ⟨this, fig, tracks⟩ := inStride.tracks
      rw [FileOp.run, allows_of_run (run_modifyFile _ _)]
      exact ⟨⟨this, fig, tracks.isTree, tracks.sound, tracks.holds,
        tracks.latest, tracks.written, tracks.count⟩, inStride.valid,
        inStride.small, inStride.past⟩
  | _ => exact apart.elim

/-- Truncation: with or without a cache, a file that was created reads like the
plain file if it is only cut off at its start and no write beyond its end
uncovers bytes that were cut off. -/
theorem truncated_reads_plain
    (writable : env.readOnly = false)
    (fresh : world.file = GdpfsFile.zero)
    (noLog : world.log = [])
    (emptyCache : world.cache = CacheFile.empty)
    (type : FileType)
    (known : type ≠ .unknown)
    (perm : Nat)
    (ops : List FileOp)
    (allFit : AllFit ops) :
    Ensures (createThen env type perm ops)
      (fun _ next => next.info.fileSize = (Plain.after ops).size ∧
        ∀ size offset, size + offset < 18446744073709551616 →
          Ensures (doRead env size offset)
            (fun bytes _ => bytes = (Plain.after ops).read size offset) next)
      world := by
  have takes : env.takes true = true := by
    rw [Env.takes, writable]
    rfl
  refine (ensures_createThen takes fresh noLog (fun _ => emptyCache) known perm
    allFit).mono ?_
  intro _ next follows
  refine ⟨?_, fun size offset bounded => ?_⟩
  · rw [World.info, if_pos follows.valid, follows.size]
  · exact (follows.ensures_doRead allFit bounded).mono
      fun _ _ reads => reads.1

/-- A file that is cut off and written again from its start. -/
theorem truncated_reads_plain_rewritten :
    Ensures (createThen plainMount .regular 420
        [.update (.write [7, 7] 0), .update (.ftruncate 0),
          .update (.write [1] 0)])
      (fun _ next => next.info.fileSize = (Plain.after
          [.update (.write [7, 7] 0), .update (.ftruncate 0),
            .update (.write [1] 0)]).size ∧
        ∀ size offset, size + offset < 18446744073709551616 →
          Ensures (doRead plainMount size offset)
            (fun bytes _ => bytes = (Plain.after
              [.update (.write [7, 7] 0), .update (.ftruncate 0),
                .update (.write [1] 0)]).read size offset) next) newLog := by
  refine truncated_reads_plain rfl rfl rfl rfl .regular (by decide) 420 _ ?_
  rintro (_ | ⟨first, _ | ⟨second, _ | ⟨third, before⟩⟩⟩) op rest split <;>
    simp only [List.nil_append, List.cons_append, List.cons.injEq,
      List.nil_eq, reduceCtorEq, List.append_eq_nil_iff,
      and_false] at split
  · obtain ⟨rfl, _⟩ := split
    simp [Fits, Plain.GapZero, byteIndexMax]
  · obtain ⟨rfl, rfl, _⟩ := split
    rfl
  · obtain ⟨rfl, rfl, rfl, _⟩ := split
    simp [Fits, Plain.GapZero, byteIndexMax]

/-- `ftruncate` to two bytes leaves none, and writing past the end uncovers
old bytes. -/
theorem truncation_uncovers :
    outcome (do
      createThen plainMount .regular 420
        [.update (.write [7, 7, 7] 0), .update (.ftruncate 2)]
      getInfoRaw) newLog = some ⟨0, .regular, 420⟩ ∧
    (Plain.after [.update (.write [7, 7, 7] 0),
      .update (.ftruncate 2)]).size = 2 ∧
    outcome (do
      createThen plainMount .regular 420
        [.update (.write [7, 7, 7] 0), .update (.ftruncate 0),
          .update (.write [1] 2)]
      doRead plainMount 3 0) newLog = some [7, 7, 1] ∧
    (Plain.after [.update (.write [7, 7, 7] 0), .update (.ftruncate 0),
      .update (.write [1] 2)]).read 3 0 = [0, 0, 1] := by
  decide +kernel

end File
end Gdpfs
