import Gdpfs.File.Replay
import Gdpfs.File.Turns
import Gdpfs.FigTree.Filed

/-!
# Files on a mount without a cache

Without a cache, `open_file` goes through the same steps on the log, but its
replay loop still asks for the cache to be filled, and nodes of the index are
still fetched through files of the cache directory.
-/

namespace Gdpfs
namespace File

open Log FigTree Effect

/-! ## Without a cache -/

section Uncached

variable {env : Env} {world : World}

/-- Records without data leave no trace. -/
theorem replay_empty
    {ents : List (Nat × LogRecord)}
    (empty : ∀ ent ∈ ents, ent.2.header.entSize = 0) :
    (forM ents fun ent => replayRecord env ent.1 ent.2) = pure () := by
  induction ents with
  | nil => rfl
  | cons ent ents inductionHypothesis =>
      have none : replayRecord env ent.1 ent.2 = pure () := by
        rw [replayRecord, if_neg]
        rw [empty ent List.mem_cons_self]
        exact Nat.lt_irrefl 0
      rw [List.forM_cons, none, pure_bind]
      exact inductionHypothesis fun other member =>
        empty other (List.mem_cons_of_mem _ member)

theorem mem_of_numbered
    {records : List LogRecord}
    (member : ent ∈ numbered first records) :
    ent.2 ∈ records := by
  induction records generalizing first with
  | nil => cases member
  | cons other records inductionHypothesis =>
      rcases List.mem_cons.mp member with rfl | older
      · exact List.mem_cons_self
      · exact List.mem_cons_of_mem _ (inductionHypothesis older)

/-- No record after the last checkpoint holds data. -/
def NoData (log : List LogRecord) : Prop :=
  ∀ datum ∈ afterChkpt log, datum.header.entSize = 0

end Uncached

/-! ## Lookups -/

/-- The stored nodes of a log have no addresses, as `get_dirty` leaves them. -/
def ClearedLog (log : List LogRecord) : Prop :=
  ∀ datum ∈ log, ∀ images, datum.payload = .nodes images →
    ∀ node ∈ images, node.Cleared

section Lookup

variable {log : List LogRecord} {heap : Heap} {this : Addr} {node : FtNode}
  {x depth : Nat}

theorem mem_of_recordAt
    {log : List LogRecord}
    (found : recordAt log recno = some datum) :
    datum ∈ log := by
  unfold recordAt at found
  split at found
  · cases found
  · exact List.mem_of_getElem? found

/-- A node that is fetched is one of the images of a record. -/
theorem image_of_fetchNode
    (fetches : fetchNode log recno offset = .ok node) :
    ∃ datum ∈ log, ∃ images, datum.payload = .nodes images ∧
      node ∈ images := by
  unfold fetchNode gdpfsLogEntOpen at fetches
  cases found : recordAt log recno with
  | none =>
      rw [found] at fetches
      cases fetches
  | some datum =>
      refine ⟨datum, mem_of_recordAt found, ?_⟩
      rw [found] at fetches
      simp only [Option.map_some, readFmeta] at fetches
      split at fetches
      · simp only [bind, Except.bind] at fetches
        split at fetches
        · split at fetches
          · next image reads =>
              cases fetches
              unfold readFtNode at reads
              split at reads
              · cases reads
              · next images isNodes =>
                  refine ⟨images, isNodes, ?_⟩
                  dsimp only at reads
                  split at reads
                  · exact List.mem_of_getElem? reads
                  · cases reads
          · cases fetches
        · cases fetches
      · cases fetches

theorem ClearedLog.concat
    (cleared : ClearedLog log)
    (also : ∀ images, datum.payload = .nodes images →
      ∀ node ∈ images, node.Cleared) :
    ClearedLog (log ++ [datum]) := by
  intro other member images isNodes
  rcases List.mem_append.mp member with old | new
  · exact cleared other old images isNodes
  · rw [List.mem_singleton.mp new] at isNodes
    exact also images isNodes

/-- A record of bytes has no nodes. -/
theorem ClearedLog.concat_data
    (cleared : ClearedLog log)
    (info : FileInfo)
    (buf : List UInt8)
    (offset : Nat) :
    ClearedLog (log ++ [dataRecord info buf offset]) := by
  refine cleared.concat fun images isNodes => ?_
  cases isNodes

theorem ClearedLog.fetched
    (cleared : ClearedLog log)
    (fetches : fetchNode log recno offset = .ok node) :
    node.Cleared := by
  obtain ⟨datum, member, images, isNodes, inside⟩ := image_of_fetchNode fetches
  exact cleared datum member images isNodes node inside

end Lookup

/-! ## The root of a file that was opened -/

section Root

variable {env : Env} {world : World} {log : List LogRecord}

section Concat

variable (info : FileInfo)

end Concat

end Root

/-! ## The logs of runs -/

section Runs

variable {env : Env} {world : World} {appends : Bool}

theorem ClearedLog.written
    (cleared : ClearedLog world.log)
    (env : Env)
    (appends : Bool)
    (buf : List UInt8)
    (offset : Nat)
    (info : FileInfo) :
    ClearedLog (world.written env appends buf offset info).log := by
  dsimp only [World.written, World.append]
  split
  · exact cleared.concat_data info buf offset
  · exact cleared

theorem ClearedLog.allows_openFile
    (cleared : ClearedLog world.log)
    (type : FileType)
    (perm : Nat)
    (init strictInit : Bool) :
    Allows (openFile env appends type perm init strictInit)
      (fun _ next => ClearedLog next.log) world := by
  rw [openFile, allows_run_bind (run_modifyFile _ _),
    allows_run_bind (run_modifyFile _ _)]
  refine (allows_openType _ _ _ _).bind ?_
  intro ok next outcome
  have typed : ClearedLog next.log := by
    rcases outcome with ⟨_, rfl⟩ | ⟨rfl, _⟩ | rfl
    · exact cleared
    · exact cleared
    · exact ClearedLog.written (cleared) env appends [] 0 ⟨0, type, perm⟩
  cases ok with
  | true =>
      rw [if_pos rfl]
      refine (allows_openIndex env strictInit next).bind ?_
      rintro _ after ⟨_, sameLog⟩
      rw [allows_pure, sameLog]
      exact typed
  | false =>
      rw [if_neg Bool.false_ne_true, allows_run_bind (run_modifyFile _ _)]
      exact allows_pure.mpr typed

/-- The only nodes that a step adds to the log are copies of a checkpoint. -/
theorem ClearedLog.allows_step
    (cleared : ClearedLog world.log)
    (op : FileOp) :
    Allows (op.run env appends) (fun _ next => ClearedLog next.log) world := by
  cases op with
  | opens call =>
      refine Allows.bind ?_ fun _ _ => allows_pure.mpr
      cases call with
      | any => exact cleared.allows_openFile _ _ _ _
      | typed type => exact cleared.allows_openFile _ _ _ _
      | init type perm strictInit => exact cleared.allows_openFile _ _ _ _
  | update change =>
      refine (allows_update change).mono ?_
      rintro _ _ ⟨_, _, _, rfl⟩
      exact cleared.written env appends change.buf change.offset _
  | setInfo info =>
      rw [FileOp.run, gdpfsFileSetInfo]
      refine (allows_doWrite_empty _).bind ?_
      rintro _ _ rfl
      exact allows_pure.mpr (cleared.written env appends [] 0 info)
  | read size offset =>
      refine (allows_doRead env size offset world).bind ?_
      intro _ next quiet
      rw [allows_pure, quiet.2]
      exact cleared
  | chkpt =>
      refine (allows_fileChkpt world).bind ?_
      rintro nodes _ ⟨heap, collected, _, rfl⟩
      have copies : ∀ node ∈ nodes, node.Cleared := by
        rcases collected with ⟨_, rfl, _⟩ | ⟨this, _, run⟩
        · exact fun _ impossible => absurd impossible List.not_mem_nil
        · exact allows_getDirty_cleared this _ _ _ _ run
      rw [allows_pure]
      dsimp only [World.checkpointed]
      split
      · refine cleared.concat fun images isNodes => ?_
        cases isNodes
        exact copies
      · exact cleared
  | close =>
      rw [FileOp.run, allows_of_run (run_modifyFile _ _)]
      exact cleared
  | appended =>
      rw [FileOp.run, allows_of_run (run_modifyFile _ _)]
      exact cleared
  | release =>
      rw [FileOp.run, allows_of_run (run_modifyFile _ _)]
      exact cleared

/-- Whatever is done to a file, the nodes in its log have no addresses. -/
theorem ClearedLog.reached
    {guard : FileOp → World → Prop}
    {start : World}
    (cleared : ClearedLog start.log)
    (reached : Reached (FileOp.run env appends) guard start world) :
    ClearedLog world.log :=
  reached.invariant (fun world => ClearedLog world.log) cleared
    fun op _ _ kept => kept.allows_step op

end Runs

/-! ## With and without the cache -/

section Opened

variable {env : Env} {world next : World}

end Opened

instance (log : List LogRecord) : Decidable (NoData log) :=
  inferInstanceAs (Decidable (∀ datum ∈ afterChkpt log, _))

/-- A mount without the cache, but with the directory that an earlier one has
left. -/
def bareMount : Env := ⟨false, 4096, false, true⟩

end File
end Gdpfs
