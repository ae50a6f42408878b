import Gdpfs.File.Reopen
import Gdpfs.FigTree.Dealloc

/-!
# The life of a file

A file is created, written, read, checkpointed, closed and opened again.  The
process may stop between any two operations; the file system is mounted again
later, perhaps elsewhere, and nothing but the log is left.  Whatever happened,
an open file reads like the plain file, and a file that is not open can be
opened from its log.
-/

namespace Gdpfs
namespace File

open Log FigTree Effect
open Cells (Owns Holds cell Store)

/-! ## Lives -/

/-- A step of a file with the given past.  No code calls
`gdpfs_file_set_info`. -/
def StepFits (env : Env) (ops : List FileOp) : FileOp → World → Prop
  | .opens call, world => CallFits env call world
  | .update change, world => UpdateFits env ops change world
  | .setInfo _, _ => False
  | .read size offset, world =>
      world.file.figtreeInitialized = true ∧
        size + offset < 18446744073709551616 ∧
        ReadFits env world size offset
  | .chkpt, world => ChkptFits world
  | _, _ => True

/-- A file after some steps, in one process or several. -/
inductive Lived : Env → List FileOp → World → Prop
  | created (env : Env) : Lived env [] newLog
  | step
      (before : Lived env ops world)
      (fits : StepFits env ops op world)
      (run : (op.run env true).run world = .ok ((), next)) :
      Lived env (ops ++ [op]) next
  /-- The process stops, and the file system is mounted again. -/
  | mounted
      (env' : Env)
      (before : Lived env ops world) :
      Lived env' ops (storedFile world.log)

section Life

variable {env : Env} {ops : List FileOp} {world : World} {size offset : Nat}

/-- A file that was released is faithful to its log. -/
theorem Durable.faithful
    {heap : Heap}
    {log : List LogRecord}
    {cache : CacheFile}
    (durable : Durable ops log)
    (mirrors : env.useCache = true → Mirrors env.block log [] cache) :
    Faithful env ops ⟨GdpfsFile.zero, heap, log, cache⟩ := by
  refine ⟨durable, infoMatches_of_invalid rfl, ?_, ?_, ?_, fun enabled =>
    ⟨mirrors enabled, ?_⟩⟩
  all_goals
    intro impossible
    cases impossible

/-- Every step that fits leaves a file faithful to its log. -/
theorem Faithful.allows_step
    {op : FileOp}
    (faithful : Faithful env ops world)
    (fits : StepFits env ops op world) :
    Allows (op.run env true) (fun _ next => Faithful env (ops ++ [op]) next)
      world := by
  cases op with
  | opens call =>
      refine (faithful.allows_opens fits).bind fun _ next kept => ?_
      exact allows_pure.mpr (kept.same rfl rfl)
  | update change => exact (faithful.ensures_update fits).allows
  | setInfo info => exact fits.elim
  | read size offset =>
      obtain ⟨opened, bounded, fill⟩ := fits
      refine (faithful.ensures_doRead opened bounded).allows.bind ?_
      rintro _ next ⟨_, kept⟩
      exact allows_pure.mpr ((kept fill).same rfl rfl)
  | chkpt =>
      refine (faithful.allows_fileChkpt fits).bind fun _ next kept => ?_
      exact allows_pure.mpr (kept.1.same rfl rfl)
  | close =>
      rw [FileOp.run, allows_of_run (run_modifyFile _ _)]
      have kept : Faithful env ops { world with file := fileUnref world.file } :=
        faithful.withFile rfl rfl rfl rfl rfl
      exact kept.same rfl rfl
  | appended =>
      rw [FileOp.run, allows_of_run (run_modifyFile _ _)]
      have kept : Faithful env ops { world with
          file := freeFileref world.file } :=
        faithful.withFile rfl rfl rfl rfl rfl
      exact kept.same rfl rfl
  | release =>
      rw [FileOp.run, allows_of_run (run_modifyFile _ _)]
      have kept : Faithful env ops { world with file := GdpfsFile.zero } :=
        faithful.durable.faithful fun enabled =>
          (faithful.cache enabled).mirrors
      exact kept.same rfl rfl

/-- At every point of its life a file is faithful to its log. -/
theorem Lived.faithful
    (lived : Lived env ops world) :
    Faithful env ops world := by
  induction lived with
  | created env =>
      exact durable_nil.faithful fun _ => mirrors_empty _ _ _
  | step _ fits run kept => exact kept.allows_step fits _ _ run
  | mounted env' _ kept =>
      exact kept.durable.faithful fun _ => mirrors_empty _ _ _

end Life

/-! ## Lives of small files -/

/-- A write of the only entry of a root stays in the root. -/
theorem wayLoaded_of_only
    {h : Nat}
    {first next : Kid (Tree h)}
    {dirty : Bool}
    {value : Int}
    {start stop : Nat}
    (positive : 0 < start)
    (ends : start ≤ stop)
    (below : stop < byteIndexMax) :
    Fig.wayLoaded
      ⟨h, (⟨dirty, first, [(⟨iInit start stop, value⟩, next)]⟩ :
        Node (Tree h))⟩ (iInit start stop) = true := by
  have pruned : Node.prune (⟨dirty, first,
      [(⟨iInit start stop, value⟩, next)]⟩ : Node (Tree h))
      (iInit byteIndexMin byteIndexMax) =
      ⟨dirty, first, [(⟨iInit start stop, value⟩, next)]⟩ := by
    have early : ¬stop < byteIndexMin := Nat.not_lt_zero _
    have inside : byteIndexMin ≤ start := Nat.zero_le _
    have late : ¬start ≤ byteIndexMin := Nat.not_le.mpr positive
    simp [Node.prune, pruneBefore, pruneLeft, pruneRight, iInit, early, inside,
      late, below.le]
  have found : place (iInit start stop) [] first
      [(⟨iInit start stop, value⟩, next)] =
      .hit [] first ⟨iInit start stop, value⟩ next [] := by
    rw [place, if_pos]
    simp [iOverlaps, iInit, ends]
  simp only [Fig.wayLoaded, FigTree.wayLoaded, descend, pruned, found,
    Hit.rightLoaded, Hit.leftLoaded, Hit.hasRight, Hit.hasLeft, absorb]
  simp [iInit]

/-- The root of the index has one entry, of the given bytes. -/
def World.isMiddle (world : World) (offset size : Nat) : Bool :=
  match world.file.figtree with
  | none => false
  | some this =>
      (world.heap.read this.root).any fun node =>
        decide (node.entries.map FtEnt.irange = [writeRange offset size])

theorem wayLoaded_of_isMiddle
    {env : Env}
    {world : World}
    {call : WriteArgs}
    (middle : world.isMiddle call.offset call.buf.length = true)
    (positive : 0 < call.offset)
    (below : call.offset + call.buf.length - 1 < byteIndexMax) :
    world.WayLoaded env call := by
  rintro this ⟨height, tree⟩ isTree _ ⟨cells, rep, owns⟩ nonempty
  obtain ⟨_, node, beneath, same, rfl, nodeRep⟩ := rep
  cases same
  have live := (owns.of_eq (add_assoc _ _ _)).read
  simp only [World.isMiddle, isTree, live, Option.any_some,
    decide_eq_true_eq] at middle
  obtain ⟨dirty, first, rest⟩ := tree
  have entries : node.entries = rest.map Prod.fst := nodeRep.entries
  rw [entries] at middle
  cases rest with
  | nil => cases middle
  | cons item rest =>
      obtain ⟨⟨range, value⟩, next⟩ := item
      obtain ⟨isRange, none⟩ := List.cons.inj middle
      have last : rest = [] :=
        List.map_eq_nil_iff.mp (List.map_eq_nil_iff.mp none)
      subst last
      obtain rfl : range = writeRange call.offset call.buf.length := isRange
      exact wayLoaded_of_only positive (by omega) below

/-- Whether a step writes to an index of a single node or to its only entry at
the root, leaves no gap, replays nothing, and does not ask the cache for
holes. -/
def fitsShort (env : Env) : FileOp → World → Bool
  | .opens (.init type _ true), world =>
      type != .unknown && type != .new && env.takes true && world.log.isEmpty
  | .opens .any, world => env.cacheDir && decide (NoData world.log)
  | .read size offset, world =>
      !env.useCache && world.file.figtreeInitialized &&
        decide (size + offset < 18446744073709551616)
  | .update (.write buf offset), world =>
      world.file.figtreeInitialized && env.takes true &&
        (world.isShort ||
          decide (0 < offset) && world.isMiddle offset buf.length) &&
        decide (offset + buf.length < byteIndexMax) &&
        decide (offset ≤ world.info.fileSize) &&
        (!env.useCache || world.file.newFile)
  | .chkpt, world =>
      world.file.figtreeInitialized && world.rootDirty &&
        world.file.figtree.all fun this => this.noneLeft world.heap
  | .release, _ => true
  | _, _ => false

section Short

variable {env : Env} {ops : List FileOp} {world final : World}

theorem Faithful.stepFits
    {op : FileOp}
    (faithful : Faithful env ops world)
    (short : fitsShort env op world = true) :
    StepFits env ops op world := by
  cases op with
  | opens call =>
      cases call with
      | any =>
          simp only [fitsShort, Bool.and_eq_true, decide_eq_true_eq] at short
          exact fun _ => ⟨Or.inl short.1, Or.inl short.2⟩
      | typed type => cases short
      | init type perm strictInit =>
          cases strictInit with
          | false => cases short
          | true => simpa [fitsShort, StepFits, CallFits, and_assoc] using short
  | update change =>
      cases change with
      | write buf offset =>
          simp only [fitsShort, Bool.and_eq_true, Bool.or_eq_true,
            decide_eq_true_eq] at short
          obtain ⟨⟨⟨⟨⟨opened, takes⟩, simple⟩, below⟩, noGap⟩, fill⟩ := short
          have last : offset + buf.length - 1 < byteIndexMax := by omega
          have isSize : world.info.fileSize = (Plain.after ops).size := by
            rw [show world.info = loadInfo world.log from faithful.info]
            exact faithful.durable.size
          refine ⟨opened, takes, ⟨by omega, ?_⟩, ?_, fun enabled old => ?_⟩
          · intro x past before
            omega
          · rcases simple with isShort | ⟨positive, middle⟩
            · exact wayLoaded_of_isShort isShort last
            · exact wayLoaded_of_isMiddle middle positive last
          · simp [enabled, old] at fill
      | ftruncate fileSize => cases short
      | setPerm perm => cases short
  | chkpt =>
      simp only [fitsShort, Bool.and_eq_true] at short
      obtain ⟨⟨opened, dirty⟩, onTop⟩ := short
      refine ⟨opened, dirty, fun this isTree => ?_⟩
      rwa [isTree] at onTop
  | release => trivial
  | setInfo info => cases short
  | read size offset =>
      simp only [fitsShort, Bool.and_eq_true, Bool.not_eq_true',
        decide_eq_true_eq] at short
      obtain ⟨⟨uncached, opened⟩, bounded⟩ := short
      refine ⟨opened, bounded, fun _ _ _ enabled => ?_⟩
      cases uncached.symm.trans enabled
  | close => cases short
  | appended => cases short

/-- A replay of steps that fit is a part of a life. -/
theorem Lived.replay
    {rest : List FileOp}
    (lived : Lived env ops world)
    (replayed : Effect.replay (FileOp.run env true) (fitsShort env) rest
      world = some final) :
    Lived env (ops ++ rest) final := by
  induction rest generalizing ops world with
  | nil =>
      cases replayed
      rwa [List.append_nil]
  | cons op rest inductionHypothesis =>
      rw [Effect.replay] at replayed
      split at replayed
      · next short =>
          split at replayed
          · next next run =>
              have fits := lived.faithful.stepFits short
              rw [List.append_cons]
              exact inductionHypothesis (lived.step fits run) replayed
          · cases replayed
      · cases replayed

end Short

/-! ## Reads -/

section Reads

variable {env : Env} {ops : List FileOp} {world : World} {size offset : Nat}

/-- At any point of the life of a file, a read of the open file returns what
the plain file holds after the same steps. -/
theorem lived_file_reads_plain
    (lived : Lived env ops world)
    (opened : world.file.figtreeInitialized = true)
    (bounded : size + offset < 18446744073709551616) :
    Ensures (doRead env size offset)
      (fun bytes _ => bytes = (Plain.after ops).read size offset) world := by
  refine (lived.faithful.ensures_doRead opened bounded).mono ?_
  intro bytes _ reads
  exact reads.1

/-- A file of five bytes in a row, in an index of two levels. -/
def bytesInRow : List FileOp :=
  [.opens (.init .regular 420 true), .update (.write [1] 0),
    .update (.write [2] 1), .update (.write [3] 2), .update (.write [4] 3),
    .update (.write [5] 4)]

/-- A file is checkpointed with a cache.  It is opened again without one, which
fetches the nodes of its index through the directory of the first cache, and
its middle byte is written and checkpointed; then it is opened once more. -/
theorem lived_file_reads_plain_remounted :
    ∃ world,
      Lived cachedMount (bytesInRow ++ [.chkpt] ++ [.opens .any, .read 5 0,
        .update (.write [9] 2), .chkpt] ++ [.opens .any]) world ∧
      world.file.figtreeInitialized = true ∧
      Ensures (doRead cachedMount 5 0)
        (fun bytes _ => bytes = [1, 2, 9, 4, 5]) world := by
  have ran : ((replay (FileOp.run cachedMount true) (fitsShort cachedMount)
      (bytesInRow ++ [.chkpt]) newLog).bind fun first =>
      (replay (FileOp.run bareMount true) (fitsShort bareMount)
        [.opens .any, .read 5 0, .update (.write [9] 2), .chkpt]
        (storedFile first.log)).bind fun second =>
      (replay (FileOp.run cachedMount true) (fitsShort cachedMount)
        [.opens .any] (storedFile second.log)).map fun world =>
          world.file.figtreeInitialized) = some true := by
    decide +kernel
  obtain ⟨first, isFirst, ran⟩ := Option.bind_eq_some_iff.mp ran
  obtain ⟨second, isSecond, ran⟩ := Option.bind_eq_some_iff.mp ran
  obtain ⟨world, isWorld, opened⟩ := Option.map_eq_some_iff.mp ran
  have lived := ((((Lived.created cachedMount).replay isFirst).mounted
    bareMount).replay isSecond).mounted cachedMount |>.replay isWorld
  refine ⟨world, lived, opened, ?_⟩
  exact lived_file_reads_plain lived opened (by decide)

/-- A faithful file that is not open is opened and read. -/
theorem Faithful.ensures_reopened
    (faithful : Faithful env ops world)
    (closed : world.file.figtreeInitialized = false)
    (logged : world.log ≠ [])
    (fits : RebuildFits env world)
    (appends : Bool)
    (bounded : size + offset < 18446744073709551616) :
    Ensures (do
        let ok ← gdpfsFileOpen env appends
        let bytes ← doRead env size offset
        pure (ok, bytes))
      (fun result _ => result = (true, (Plain.after ops).read size offset))
      world := by
  have counted : Faithful env ops { world with
      file := { fileRef world.file with
        newFile := (fileRef world.file).newFile || false } } :=
    faithful.withFile rfl rfl rfl rfl (Bool.or_false _)
  rw [gdpfsFileOpen, openFile, bind_assoc,
    ensures_run_bind (run_modifyFile _ _), bind_assoc,
    ensures_run_bind (run_modifyFile _ _), bind_assoc,
    ensures_run_bind (run_openType _ _), if_pos rfl,
    decide_eq_true (Or.inl rfl), if_pos rfl, openIndex]
  simp only [bind_assoc, pure_bind]
  rw [ensures_bind, ensures_get, if_neg Bool.false_ne_true,
    if_neg (by simpa [fileRef] using closed)]
  refine (counted.ensures_buildIndex closed logged
    ⟨fits.dir, fits.replay⟩).bind ?_
  rintro _ next ⟨kept, opened⟩
  refine (kept.ensures_doRead opened bounded).bind ?_
  rintro bytes _ ⟨rfl, _⟩
  exact ensures_pure.mpr rfl

/-- At any point of the life of a file that was created and is not open, the
file can be opened if there is nothing to replay or what is replayed fits, and
then reads like the plain file. -/
theorem lived_file_reopens
    (lived : Lived env ops world)
    (closed : world.file.figtreeInitialized = false)
    (logged : world.log ≠ [])
    (fits : RebuildFits env world)
    (appends : Bool)
    (bounded : size + offset < 18446744073709551616) :
    Ensures (do
        let ok ← gdpfsFileOpen env appends
        let bytes ← doRead env size offset
        pure (ok, bytes))
      (fun result _ => result = (true, (Plain.after ops).read size offset))
      world :=
  lived.faithful.ensures_reopened closed logged fits appends bounded

/-- The log of a file of one byte that was not checkpointed. -/
def byteLog : List LogRecord :=
  [dataRecord ⟨0, .regular, 420⟩ [] 0, dataRecord ⟨1, .regular, 420⟩ [7] 0]

/-- Both records fit when they are replayed. -/
theorem openFits_byteLog :
    OpenFits cachedMount (storedFile byteLog) := by
  rintro file _ start run before ent after split
  cases run
  cases before with
  | nil =>
      cases split
      refine allows_pure.mpr fun contents origin data => ?_
      cases data.payload
      refine ⟨fun this fig _ _ _ impossible => ?_, fun x _ isHole known => ?_⟩
      · cases impossible
      · exact absurd (isHole.symm.trans known) (by decide)
  | cons first before =>
      obtain ⟨rfl, others⟩ := List.cons.inj split
      cases before with
      | cons second before => cases before <;> cases others
      | nil =>
          cases others
          rintro _ next run contents origin data
          cases run
          cases data.payload
          obtain rfl : origin = 0 := (Int.natCast_inj.mp data.place).symm
          exact ⟨wayLoaded_of_isShort rfl (by decide),
            fillFits_whole _ _ (Nat.zero_le _)⟩

/-- The file is opened from its log, and its byte replayed. -/
theorem lived_file_reopens_replayed :
    Lived cachedMount oneByte (storedFile byteLog) ∧
      Ensures (do
          let ok ← gdpfsFileOpen cachedMount true
          let bytes ← doRead cachedMount 1 0
          pure (ok, bytes)) (fun result _ => result = (true, [7]))
        (storedFile byteLog) := by
  have ran : (replay (FileOp.run cachedMount true) (fitsShort cachedMount)
      oneByte newLog).map World.log = some byteLog := by
    decide +kernel
  obtain ⟨world, replayed, isLog⟩ := Option.map_eq_some_iff.mp ran
  have lived := ((Lived.created cachedMount).replay replayed).mounted
    cachedMount
  rw [isLog] at lived
  refine ⟨lived, ?_⟩
  exact lived_file_reopens lived rfl (List.cons_ne_nil _ _)
    ⟨Or.inl rfl, Or.inr ⟨rfl, by decide, openFits_byteLog⟩⟩ true (by decide)

/-- What a checkpoint has stored is there when the file system is mounted
again, with a cache or over the directory of an earlier one: the file can be
opened, with nothing to replay, and reads like the plain file. -/
theorem checkpointed_file_reopens
    (lived : Lived env ops world)
    (fits : ChkptFits world)
    (checkpointed : (fileChkpt env true).run world = .ok (nodes, next))
    (env' : Env)
    (dir : env'.cacheDir = true)
    (appends : Bool)
    (bounded : size + offset < 18446744073709551616) :
    Ensures (do
        let ok ← gdpfsFileOpen env' appends
        let bytes ← doRead env' size offset
        pure (ok, bytes))
      (fun result _ => result = (true, (Plain.after ops).read size offset))
      (storedFile next.log) := by
  obtain ⟨kept, header, nodes', isLog⟩ :=
    lived.faithful.allows_fileChkpt fits _ _ checkpointed
  have stored : Faithful env' ops (storedFile next.log) :=
    kept.durable.faithful fun _ => mirrors_empty _ _ _
  have nothing : afterChkpt next.log = [] := by
    rw [isLog, afterChkpt_concat]
    exact if_pos rfl
  have noData : NoData next.log := by
    intro datum member
    rw [nothing] at member
    cases member
  refine stored.ensures_reopened rfl ?_ ⟨Or.inl dir, Or.inl noData⟩
    appends bounded
  change next.log ≠ []
  rw [isLog]
  exact List.append_ne_nil_of_right_ne_nil _ (List.cons_ne_nil _ _)

/-- Five bytes are checkpointed with a cache, and read without one through the
nodes in the log. -/
theorem checkpointed_file_reopens_bytesInRow :
    ∃ world nodes next,
      Lived cachedMount bytesInRow world ∧
        (fileChkpt cachedMount true).run world = .ok (nodes, next) ∧
        nodes.length = 3 ∧
        Ensures (do
            let ok ← gdpfsFileOpen bareMount false
            let bytes ← doRead bareMount 5 0
            pure (ok, bytes)) (fun result _ => result = (true, [1, 2, 3, 4, 5]))
          (storedFile next.log) := by
  have ran : ((replay (FileOp.run cachedMount true) (fitsShort cachedMount)
      bytesInRow newLog).filter fun world =>
        fitsShort cachedMount .chkpt world &&
          decide ((outcome (fileChkpt cachedMount true) world).map
            List.length = some 3)).isSome = true := by
    decide +kernel
  obtain ⟨world, kept⟩ := Option.isSome_iff_exists.mp ran
  obtain ⟨replayed, short⟩ := Option.filter_eq_some_iff.mp kept
  obtain ⟨fits, completes⟩ := Bool.and_eq_true_iff.mp short
  obtain ⟨nodes, stored, three⟩ :=
    Option.map_eq_some_iff.mp (of_decide_eq_true completes)
  obtain ⟨_, next, run, rfl⟩ := ensures_of_outcome stored
  have lived := (Lived.created cachedMount).replay replayed
  refine ⟨world, _, next, lived, run, three, ?_⟩
  exact checkpointed_file_reopens lived (lived.faithful.stepFits fits) run
    bareMount rfl false (by decide)

end Reads

/-! ## The end of a file object -/

section End

variable {env : Env} {ops : List FileOp} {world : World}

/-- At any point of the life of a file, when its object is freed, `ft_dealloc`
comes to every node of the index that is in memory once, frees it, and touches
nothing else. -/
theorem lived_file_frees_index
    {this : Figtree}
    (lived : Lived env ops world)
    (opened : world.file.figtreeInitialized = true)
    (isTree : world.file.figtree = some this) :
    Ensures (ftDealloc this)
      (fun _ next => ∀ address,
        (Under world.heap this.root address → next.read address = none) ∧
          (¬Under world.heap this.root address →
            next.read address = world.heap.read address)) world.heap := by
  obtain ⟨this', fig, tracks⟩ := lived.faithful.tracks opened
  cases isTree.symm.trans tracks.isTree
  exact ensures_ftDealloc tracks.holds

/-- A file is opened again and one of the two leaves of its index fetched; then
the index is freed. -/
theorem lived_file_frees_index_bytesInRow :
    ∃ world this,
      Lived bareMount (bytesInRow ++ [.chkpt] ++ [.opens .any, .read 1 0])
        world ∧
        world.file.figtree = some this ∧
        (world.heap.read this.root).map (fun node =>
          node.subtrees.map fun sptr => (sptr.st.isSome, sptr.inmemory)) =
            some [(true, false), (false, false)] ∧
        Ensures (ftDealloc this)
          (fun _ next => ∀ address,
            (Under world.heap this.root address → next.read address = none) ∧
              (¬Under world.heap this.root address →
                next.read address = world.heap.read address)) world.heap := by
  have ran : ((replay (FileOp.run cachedMount true) (fitsShort cachedMount)
      (bytesInRow ++ [.chkpt]) newLog).bind fun first =>
      ((replay (FileOp.run bareMount true) (fitsShort bareMount)
        [.opens .any, .read 1 0] (storedFile first.log)).filter fun world =>
          world.file.figtreeInitialized).bind fun world =>
        world.file.figtree.filter fun this =>
          decide ((world.heap.read this.root).map (fun node =>
            node.subtrees.map fun sptr => (sptr.st.isSome, sptr.inmemory)) =
              some [(true, false), (false, false)])).isSome = true := by
    decide +kernel
  obtain ⟨this, ran⟩ := Option.isSome_iff_exists.mp ran
  obtain ⟨first, isFirst, ran⟩ := Option.bind_eq_some_iff.mp ran
  obtain ⟨world, kept, ran⟩ := Option.bind_eq_some_iff.mp ran
  obtain ⟨isWorld, opened⟩ := Option.filter_eq_some_iff.mp kept
  obtain ⟨isTree, partly⟩ := Option.filter_eq_some_iff.mp ran
  have lived := (((Lived.created cachedMount).replay isFirst).mounted
    bareMount).replay isWorld
  exact ⟨world, this, lived, isTree, of_decide_eq_true partly,
    lived_file_frees_index lived opened isTree⟩

end End

end File
end Gdpfs
