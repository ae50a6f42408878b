import Gdpfs.Dir.Table

/-!
# Files at paths

The functions that create and remove files at a path work on a directory that
they open first.
-/

namespace Gdpfs
namespace Dir

open Log File Effect

/-- The parent of a path is opened, and is a directory with the given contents. -/
structure ParentOpened (env : DirEnv) (fs : Fs) (filepath : List UInt8)
    (dirfh : Nat) (between : Fs) (dir : GdpName) (node : Node) : Prop where
  run : (openParentDir env filepath).run fs =
    .ok (.ok (dirfh, basename filepath), between)
  opened : OpenOn between dirfh dir node

section Parent

variable {env : DirEnv} {fs between : Fs} {filepath : List UInt8} {dirfh : Nat}
  {dir : GdpName} {node : Node} {type : FileType} {stores : Bool} {perm : Nat}

theorem ParentOpened.reserved
    (parent : ParentOpened env fs filepath dirfh between dir node) :
    fs.store.fhs dirfh = none ∧ dirfh < maxFhs ∧
      between.store = fs.store.withHandle dirfh dir := by
  have reserves := allows_openParentDir filepath _ _ parent.run
  obtain ⟨⟨unused, below, gname, _, reserved⟩, _⟩ := reserves
  have handle := parent.opened.handle
  rw [reserved] at handle
  have same : (fs.store.withHandle dirfh gname).fhs dirfh = some gname :=
    Function.update_self _ _ _
  rw [handle] at same
  rw [← Option.some.inj same] at reserved
  exact ⟨unused, below, reserved⟩

theorem ParentOpened.nonempty
    (parent : ParentOpened env fs filepath dirfh between dir node) :
    filepath.isEmpty = false := by
  cases filepath with
  | cons byte rest => rfl
  | nil =>
      have run : (openParentDir env []).run fs = .ok (.error .badpath, fs) :=
        rfl
      rw [parent.run] at run
      cases run

/-- Removing from a parent that was opened. -/
theorem ParentOpened.ensures_gdpfsDirRemoveFileAtPath
    {post : Stat → Fs → Prop}
    {type : FileType}
    (parent : ParentOpened env fs filepath dirfh between dir node)
    (removes : Ensures (gdpfsDirRemove env dirfh (basename filepath) type) post
      between) :
    Ensures (gdpfsDirRemoveFileAtPath env filepath type)
      (fun stat next => ∃ middle, post stat middle ∧
        next = { middle with store := middle.store.closed dirfh }) fs := by
  rw [gdpfsDirRemoveFileAtPath, ensures_run_bind parent.run]
  refine (removes.and (allows_gdpfsDirRemove dirfh _ type)).bind ?_
  rintro stat middle ⟨holds, handles⟩
  have handle : middle.store.fhs dirfh = some dir := by
    rw [handles]
    exact parent.opened.handle
  rw [ensures_run_bind (run_gdpfsFileClose handle)]
  exact ensures_pure.mpr ⟨middle, holds, rfl⟩

/-- Creating a file under a name that is in the parent. -/
theorem ParentOpened.ensures_create_exists
    (parent : ParentOpened env fs filepath dirfh between dir node)
    (reads : ∀ tick, env.chance .read tick = true)
    (found : findIn node.contents (basename filepath) =
      .fileExists offset ent) :
    Ensures (gdpfsDirCreateFileAtPath env filepath type true perm)
      (fun created next => created = ⟨.fileExists, none, some ent.gname⟩ ∧
        next.store = between.store) fs := by
  rw [gdpfsDirCreateFileAtPath, ensures_run_bind parent.run]
  refine (ensures_findInsertOffset reads parent.opened _).bind ?_
  rintro _ next ⟨rfl, store, _⟩
  rw [found]
  exact ensures_pure.mpr ⟨rfl, store⟩

/-- Without a place to store the name of the existing file, that is an access
through the null pointer. -/
theorem ParentOpened.not_ensures_create_null
    {post : Created → Fs → Prop}
    (parent : ParentOpened env fs filepath dirfh between dir node)
    (reads : ∀ tick, env.chance .read tick = true)
    (found : findIn node.contents (basename filepath) =
      .fileExists offset ent) :
    ¬Ensures (gdpfsDirCreateFileAtPath env filepath type false perm) post fs := by
  rw [gdpfsDirCreateFileAtPath, ensures_run_bind parent.run]
  obtain ⟨_, next, run, rfl, _⟩ :=
    ensures_findInsertOffset reads parent.opened (basename filepath)
  dsimp only
  rw [ensures_run_bind run, found]
  exact ensures_throw

theorem ParentOpened.ensures_create_corrupt
    (parent : ParentOpened env fs filepath dirfh between dir node)
    (reads : ∀ tick, env.chance .read tick = true)
    (corrupt : findIn node.contents (basename filepath) = .corrupt) :
    Ensures (gdpfsDirCreateFileAtPath env filepath type stores perm)
      (fun created next => created = ⟨.corrupt, none, none⟩ ∧
        next.store = between.store) fs := by
  rw [gdpfsDirCreateFileAtPath, ensures_run_bind parent.run]
  refine (ensures_findInsertOffset reads parent.opened _).bind ?_
  rintro _ next ⟨rfl, store, _⟩
  rw [corrupt]
  exact ensures_pure.mpr ⟨rfl, store⟩

/-- The store after a new file was added to a directory. -/
def Store.added (store : Store) (dir : GdpName) (node : Node) (offset : Nat)
    (name : List UInt8) (gname : GdpName) (file : Node) : Store :=
  (store.setNode gname file).setNode dir
    (node.withContents
      (overwrite node.contents offset (PhysEnt.named name gname).bytes))

/-- What creating a file at a path does if the name is free. -/
inductive CreateFree (env : DirEnv) (store : Store) (dirfh : Nat)
    (dir : GdpName) (node : Node) (offset : Nat) (name : List UInt8)
    (file : Node) : Created → Store → Prop
  | fails
      (kept : next = store ∨ next = store.taken)
      (notOk : stat.isOk = false)
      (reason : Smooth env → store.nextFree ≠ none →
        store.nodes (env.newNames store.created) ≠ none) :
      CreateFree env store dirfh dir node offset name file
        ⟨stat, none, none⟩ next
  | creates
      (new : store.nodes (env.newNames store.created) = none)
      (unused : store.fhs fh = none)
      (below : fh < maxFhs) :
      CreateFree env store dirfh dir node offset name file
        ⟨.ok, some fh, none⟩
        (((store.taken.withHandle fh (env.newNames store.created)).added dir
          node offset name (env.newNames store.created) file).closed dirfh)

/-- A handle stays open while a new file is created. -/
theorem OpenOn.of_new
    {next : Fs}
    {file : Node}
    (opened : OpenOn fs dirfh dir node)
    (new : fs.store.nodes gname = none)
    (unused : fs.store.fhs fh = none)
    (made : next.store =
      (fs.store.taken.withHandle fh gname).setNode gname file) :
    OpenOn next dirfh dir node := by
  have differ : dir ≠ gname := by
    intro same
    have stored := opened.node
    rw [same, new] at stored
    cases stored
  have apart : dirfh ≠ fh := by
    intro same
    have handle := opened.handle
    rw [same, unused] at handle
    cases handle
  refine ⟨?_, ?_⟩
  · rw [made]
    exact (Function.update_of_ne apart _ _).trans opened.handle
  · rw [made]
    exact (Function.update_of_ne differ _ _).trans opened.node

theorem ParentOpened.ensures_create_free
    (parent : ParentOpened env fs filepath dirfh between dir node)
    (reads : ∀ tick, env.chance .read tick = true)
    (writes : ∀ tick, env.chance .write tick = true)
    (free : findIn node.contents (basename filepath) = .free offset) :
    Ensures (gdpfsDirCreateFileAtPath env filepath type stores perm)
      (fun created next => CreateFree env between.store dirfh dir node offset
        (basename filepath) ⟨type, perm, []⟩ created next.store) fs := by
  rw [gdpfsDirCreateFileAtPath, ensures_run_bind parent.run]
  refine (ensures_findInsertOffset reads parent.opened _).bind ?_
  rintro _ state ⟨rfl, store, _⟩
  rw [free]
  refine (ensures_gdpfsFileCreate type perm).bind ?_
  rintro result next ⟨creates, _⟩
  rw [store] at creates
  cases result with
  | error stat =>
      obtain ⟨kept, notOk, reason⟩ := creates
      exact ensures_pure.mpr (.fails kept notOk reason)
  | ok made =>
      obtain ⟨fh, gname⟩ := made
      obtain ⟨rfl, new, unused, below, made⟩ := creates
      have opened : OpenOn next dirfh dir node :=
        parent.opened.of_new new unused made
      dsimp only
      rw [ensures_run_bind (opened.run_addAtOffset writes _ _ _)]
      refine (ensures_close_bind dir ?_).mpr ?_
      · exact opened.handle
      · rw [made]
        exact ensures_pure.mpr (.creates new unused below)

end Parent

end Dir
end Gdpfs
