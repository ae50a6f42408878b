import Gdpfs.Dir.Scan

/-!
# Opening, writing and creating files

What the calls of the file code do to the store, whether or not they fail.
-/

namespace Gdpfs
namespace Dir

open Log File Effect

/-- The store with a handle on a file. -/
def Store.withHandle (store : Store) (fh : Nat) (gname : GdpName) : Store :=
  { store with fhs := Function.update store.fhs fh (some gname) }

/-- The store without a handle. -/
def Store.closed (store : Store) (fh : Nat) : Store :=
  { store with fhs := Function.update store.fhs fh none }

/-- The store with a file replaced. -/
def Store.setNode (store : Store) (gname : GdpName) (node : Node) : Store :=
  { store with nodes := Function.update store.nodes gname (some node) }

/-- Closing a handle that was just opened. -/
theorem closed_withHandle
    {store : Store}
    (unused : store.fhs fh = none)
    (gname : GdpName) :
    (store.withHandle fh gname).closed fh = store := by
  rw [Store.withHandle, Store.closed, Function.update_idem, ← unused,
    Function.update_eq_self]

/-- No call fails. -/
def Smooth (env : DirEnv) : Prop :=
  ∀ call tick, env.chance call tick = true

/-- Why a file cannot be opened although no call fails. -/
def openStat (stored : Option Node) (type : FileType) : Option Stat :=
  match stored with
  | none => some .gdp
  | some node =>
      if type = .unknown ∨ node.fileType = type then none
      else some .invldftype

/-- What an attempt to open a file does to the store. -/
def Opens (env : DirEnv) (store : Store) (gname : GdpName) (type : FileType)
    (next : Store) : Except Stat Nat → Prop
  | .ok fh => store.fhs fh = none ∧ fh < maxFhs ∧
      (∃ node, store.nodes gname = some node ∧
        (type = .unknown ∨ node.fileType = type)) ∧
      next = store.withHandle fh gname
  | .error stat => next = store ∧ stat.isOk = false ∧
      (Smooth env → store.nextFree ≠ none →
        openStat (store.nodes gname) type = some stat)

section Calls

variable {env : DirEnv} {fs : Fs} {fh : Nat} {gname : GdpName} {node : Node}

theorem run_gdpfsFileClose
    (handle : fs.store.fhs fh = some gname) :
    (gdpfsFileClose fh).run fs =
      .ok ((), { fs with store := fs.store.closed fh }) := by
  have found : (lookupFh fh).run fs = .ok (gname, fs) := by
    rw [lookupFh, run_get_bind, handle]
    rfl
  rw [gdpfsFileClose, run_bind_of_run found]
  rfl

/-- Step over the closing of a handle. -/
theorem ensures_close_bind
    {rest : Unit → DirM α}
    {post : α → Fs → Prop}
    (gname : GdpName)
    (handle : fs.store.fhs fh = some gname) :
    Ensures (gdpfsFileClose fh >>= rest) post fs ↔
      Ensures (rest ()) post { fs with store := fs.store.closed fh } :=
  ensures_run_bind (run_gdpfsFileClose handle)

/-- The handle that is reserved next was not in use. -/
theorem nextFree_spec
    {store : Store}
    (free : store.nextFree = some fh) :
    store.fhs fh = none ∧ fh < maxFhs := by
  rw [Store.nextFree] at free
  have unused := List.find?_some free
  have member := List.mem_of_find?_eq_some free
  exact ⟨Option.isNone_iff_eq_none.mp unused, List.mem_range.mp member⟩

theorem run_reserve
    (free : fs.store.nextFree = some fh)
    (gname : GdpName) :
    (reserve gname).run fs =
      .ok (some fh, { fs with store := fs.store.withHandle fh gname }) := by
  rw [reserve, run_get_bind, free]
  rfl

theorem run_reserve_none
    (full : fs.store.nextFree = none)
    (gname : GdpName) :
    (reserve gname).run fs = .ok (none, fs) := by
  rw [reserve, run_get_bind, full]
  rfl

theorem run_release (fh : Nat) :
    (release fh).run fs = .ok ((), { fs with store := fs.store.closed fh }) :=
  rfl

/-- Closing a handle that was opened on a file. -/
theorem run_close_opened
    {store : Store}
    (unused : store.fhs fh = none)
    (reserved : fs.store = store.withHandle fh gname) :
    (gdpfsFileClose fh).run fs = .ok ((), { fs with store := store }) := by
  have handle : fs.store.fhs fh = some gname := by
    rw [reserved]
    exact Function.update_self _ _ _
  rw [run_gdpfsFileClose handle, reserved, closed_withHandle unused]

theorem ensures_checkType
    {store : Store}
    (unused : store.fhs fh = none)
    (below : fh < maxFhs)
    (stored : store.nodes gname = some node)
    (reserved : fs.store = store.withHandle fh gname)
    (type : FileType) :
    Ensures (checkType env fh node type)
      (fun result next => Opens env store gname type next.store result ∧
        next.copies = fs.copies) fs := by
  have reservedLater : (fs.later 1).store = store.withHandle fh gname :=
    reserved
  have close := run_close_opened unused reservedLater
  rw [checkType]
  split
  · next any =>
      exact ensures_pure.mpr
        ⟨⟨unused, below, ⟨node, stored, Or.inl any⟩, reserved⟩, rfl⟩
  · next known =>
      rw [ensures_run_bind (run_succeeds .info)]
      split
      · next fails =>
          rw [ensures_run_bind close]
          refine ensures_pure.mpr ⟨⟨rfl, rfl, fun smooth _ => ?_⟩, rfl⟩
          rw [smooth .info fs.tick] at fails
          cases fails
      · split
        · next differs =>
            rw [ensures_run_bind close]
            refine ensures_pure.mpr ⟨⟨rfl, rfl, fun _ _ => ?_⟩, rfl⟩
            rw [stored]
            exact if_neg (not_or.mpr ⟨known, differs⟩)
        · next typed =>
            exact ensures_pure.mpr
              ⟨⟨unused, below, ⟨node, stored, Or.inr (not_not.mp typed)⟩,
                reserved⟩, rfl⟩

/-- `gdpfs_file_open_type` opens a handle, or fails and leaves the store as it
was. -/
theorem ensures_gdpfsFileOpenType
    (env : DirEnv)
    (fs : Fs)
    (gname : GdpName)
    (type : FileType) :
    Ensures (gdpfsFileOpenType env gname type)
      (fun result next => Opens env fs.store gname type next.store result ∧
        next.copies = fs.copies) fs := by
  rw [gdpfsFileOpenType]
  cases free : fs.store.nextFree with
  | none =>
      rw [ensures_run_bind (run_reserve_none free gname)]
      exact ensures_pure.mpr ⟨⟨rfl, rfl, fun _ some => absurd free some⟩, rfl⟩
  | some fh =>
      obtain ⟨unused, below⟩ := nextFree_spec free
      have restored := closed_withHandle unused gname
      rw [ensures_run_bind (run_reserve free gname)]
      dsimp only
      rw [ensures_run_bind (run_succeeds .opens), ensures_bind, ensures_get]
      dsimp only [Fs.later, Store.withHandle]
      cases stored : fs.store.nodes gname with
      | none =>
          rw [ensures_run_bind (run_release fh)]
          refine ensures_pure.mpr ⟨⟨restored, rfl, fun _ _ => ?_⟩, rfl⟩
          rw [stored]
          rfl
      | some node =>
          dsimp only
          split
          · exact ensures_checkType unused below stored rfl type
          · next fails =>
              rw [ensures_run_bind (run_release fh)]
              refine ensures_pure.mpr ⟨⟨restored, rfl, fun smooth _ => ?_⟩, rfl⟩
              exact absurd (smooth .opens fs.tick) fails

/-- The file with other contents. -/
def Node.withContents (node : Node) (contents : List UInt8) : Node :=
  { node with contents := contents }

theorem OpenOn.run_gdpfsFileWrite
    (opened : OpenOn fs fh gname node)
    (writes : ∀ tick, env.chance .write tick = true)
    (buf : List UInt8)
    (offset : Nat) :
    (gdpfsFileWrite env fh buf offset).run fs =
      .ok (buf.length, { fs.later 1 with
        store := fs.store.setNode gname
          (node.withContents (overwrite node.contents offset buf)) }) := by
  rw [gdpfsFileWrite, run_bind_of_run opened.run_fileOf]
  dsimp only
  rw [run_get_bind, run_bind_of_run (run_succeeds .write), writes, if_pos rfl]
  rfl

theorem OpenOn.run_gdpfsFileGetInfo
    (opened : OpenOn fs fh gname node) :
    (gdpfsFileGetInfo env fh).run fs =
      .ok (if env.chance .info fs.tick then .ok node else .error .corrupt,
        fs.later 1) := by
  rw [gdpfsFileGetInfo, run_bind_of_run opened.run_fileOf]
  dsimp only
  rw [run_bind_of_run (run_succeeds .info)]
  cases env.chance .info fs.tick with
  | false => rfl
  | true => rfl

theorem OpenOn.run_addAtOffset
    (opened : OpenOn fs fh gname node)
    (writes : ∀ tick, env.chance .write tick = true)
    (offset : Nat)
    (name : List UInt8)
    (other : GdpName) :
    (addAtOffset env fh offset name other).run fs =
      .ok (.ok,
        { store := fs.store.setNode gname
            (node.withContents (overwrite node.contents offset
              (PhysEnt.named name other).bytes))
          tick := fs.tick + 1
          copies := ⟨nameMaxGdpfs + 1, nameMaxGdpfs⟩ :: fs.copies }) := by
  have copied : OpenOn
      { fs with copies := ⟨nameMaxGdpfs + 1, nameMaxGdpfs⟩ :: fs.copies }
      fh gname node := ⟨opened.handle, opened.node⟩
  have copies : (copyName (nameMaxGdpfs + 1) nameMaxGdpfs).run fs =
      .ok ((),
        { fs with copies := ⟨nameMaxGdpfs + 1, nameMaxGdpfs⟩ :: fs.copies }) :=
    rfl
  rw [addAtOffset, run_bind_of_run copies,
    run_bind_of_run (copied.run_gdpfsFileWrite writes _ _),
    PhysEnt.length_bytes]
  rfl

end Calls

/-! ## New files -/

/-- The store after a log was taken from the supply. -/
def Store.taken (store : Store) : Store :=
  { store with created := store.created + 1 }

/-- What an attempt to open a new file does to the store. -/
def OpensNew (env : DirEnv) (store : Store) (gname : GdpName)
    (type : FileType) (perm : Nat) (next : Store) : Except Stat Nat → Prop
  | .ok fh => store.nodes gname = none ∧ store.fhs fh = none ∧ fh < maxFhs ∧
      next = (store.withHandle fh gname).setNode gname ⟨type, perm, []⟩
  | .error stat => next = store ∧ stat.isOk = false ∧
      (Smooth env → store.nextFree ≠ none → store.nodes gname ≠ none)

/-- What an attempt to create a file does to the store. -/
def Creates (env : DirEnv) (store : Store) (type : FileType) (perm : Nat)
    (next : Store) : Except Stat (Nat × GdpName) → Prop
  | .ok (fh, gname) => gname = env.newNames store.created ∧
      OpensNew env store.taken gname type perm next (.ok fh)
  | .error stat => (next = store ∨ next = store.taken) ∧ stat.isOk = false ∧
      (Smooth env → store.nextFree ≠ none →
        store.nodes (env.newNames store.created) ≠ none)

section Create

variable {env : DirEnv} {fs : Fs}

theorem ensures_gdpfsFileOpenInit
    (fs : Fs)
    (gname : GdpName)
    (type : FileType)
    (perm : Nat) :
    Ensures (gdpfsFileOpenInit env gname type perm)
      (fun result next => OpensNew env fs.store gname type perm next.store
        result ∧ next.copies = fs.copies) fs := by
  rw [gdpfsFileOpenInit]
  cases free : fs.store.nextFree with
  | none =>
      rw [ensures_run_bind (run_reserve_none free gname)]
      exact ensures_pure.mpr ⟨⟨rfl, rfl, fun _ some => absurd free some⟩, rfl⟩
  | some fh =>
      obtain ⟨unused, below⟩ := nextFree_spec free
      have restored := closed_withHandle unused gname
      rw [ensures_run_bind (run_reserve free gname)]
      dsimp only
      rw [ensures_run_bind (run_succeeds .opens)]
      split
      · next fails =>
          rw [ensures_run_bind (run_release fh)]
          refine ensures_pure.mpr ⟨⟨restored, rfl, fun smooth => ?_⟩, rfl⟩
          rw [smooth .opens _] at fails
          cases fails
      · rw [ensures_run_bind (run_succeeds .info), ensures_bind, ensures_get]
        split
        · next fails =>
            rw [ensures_run_bind (run_close_opened unused rfl)]
            refine ensures_pure.mpr ⟨⟨rfl, rfl, fun smooth => ?_⟩, rfl⟩
            rw [smooth .info _] at fails
            cases fails
        · split
          · next existing =>
              rw [ensures_run_bind (run_close_opened unused rfl)]
              refine ensures_pure.mpr ⟨⟨rfl, rfl, fun _ _ => ?_⟩, rfl⟩
              exact Option.isSome_iff_ne_none.mp existing
          · next new =>
              rw [Option.not_isSome_iff_eq_none] at new
              exact ⟨_, _, rfl, ⟨new, unused, below, rfl⟩, rfl⟩

/-- `gdpfs_file_create` makes a file under a new name, or fails and changes no
file and no handle. -/
theorem ensures_gdpfsFileCreate
    (type : FileType)
    (perm : Nat) :
    Ensures (gdpfsFileCreate env type perm)
      (fun result next => Creates env fs.store type perm next.store result ∧
        next.copies = fs.copies) fs := by
  rw [gdpfsFileCreate]
  cases made : env.chance .create fs.tick with
  | false =>
      have run : (getPrecreated env).run fs = .ok (none, fs.later 1) := by
        rw [getPrecreated, run_bind_of_run (run_succeeds .create), made,
          if_neg Bool.false_ne_true]
        rfl
      rw [ensures_run_bind run]
      refine ensures_pure.mpr ⟨⟨Or.inl rfl, rfl, fun smooth => ?_⟩, rfl⟩
      rw [smooth .create fs.tick] at made
      cases made
  | true =>
      have run : (getPrecreated env).run fs =
          .ok (some (env.newNames fs.store.created),
            { fs.later 1 with store := fs.store.taken }) := by
        rw [getPrecreated, run_bind_of_run (run_succeeds .create), made,
          if_pos rfl]
        rfl
      rw [ensures_run_bind run]
      refine (ensures_gdpfsFileOpenInit _ _ type perm).bind ?_
      rintro result next ⟨opens, copies⟩
      cases result with
      | error stat =>
          obtain ⟨same, fails, reason⟩ := opens
          exact ensures_pure.mpr ⟨⟨Or.inr same, fails, reason⟩, copies⟩
      | ok fh => exact ensures_pure.mpr ⟨⟨rfl, opens⟩, copies⟩

end Create

/-! ## Files that may be removed or replaced -/

/-- The status for a directory that should be empty. -/
def emptyStat (contents : List UInt8) : Stat :=
  match firstIn contents with
  | .eof => .ok
  | .ok _ _ => .dirNotEmpty
  | .corrupt => .corrupt

/-- The status of the check before a file is removed, if no call fails. -/
def removeStat (stored : Option Node) (type : FileType) : Stat :=
  if type = .unknown then .ok
  else
    match stored with
    | none => .gdp
    | some node =>
        if node.fileType ≠ type then .invldftype
        else if type = .dir then emptyStat node.contents
        else .ok

/-- The status of the check before a file is replaced, if no call fails. -/
def replaceStat (stored : Option Node) (f1type : FileType) : Stat :=
  match stored with
  | none => .gdp
  | some node =>
      if f1type ≠ node.fileType then
        if node.fileType = .regular then .fileExists else .dirExists
      else if node.fileType = .dir then emptyStat node.contents
      else .ok

/-- A check ends with a status, or with another one if a call may fail. -/
def Checks (env : DirEnv) (store : Store) (expected stat : Stat) : Prop :=
  stat = expected ∨
    stat.isOk = false ∧ ¬(Smooth env ∧ store.nextFree ≠ none)

section Checks

variable {env : DirEnv} {fs : Fs} {fh : Nat} {gname : GdpName} {node : Node}

/-- A handle that was opened on a file. -/
theorem openOn_withHandle
    {store : Store}
    (stored : store.nodes gname = some node)
    (reserved : fs.store = store.withHandle fh gname) :
    OpenOn fs fh gname node := by
  refine ⟨?_, ?_⟩
  · rw [reserved]
    exact Function.update_self _ _ _
  · rw [reserved]
    exact stored

theorem ensures_checkEmpty
    {store : Store}
    (reads : ∀ tick, env.chance .read tick = true)
    (unused : store.fhs fh = none)
    (stored : store.nodes gname = some node)
    (reserved : fs.store = store.withHandle fh gname) :
    Ensures (checkEmpty env fh)
      (fun stat next => next.store = store ∧
        stat = emptyStat node.contents) fs := by
  have opened := openOn_withHandle stored reserved
  rw [checkEmpty]
  refine (ensures_gdpfsDirIsempty reads opened).bind ?_
  rintro _ next ⟨rfl, same, _⟩
  rw [ensures_run_bind (run_close_opened unused (same.trans reserved)),
    emptyStat]
  cases firstIn node.contents with
  | ok name offset => exact ensures_pure.mpr ⟨rfl, rfl⟩
  | eof => exact ensures_pure.mpr ⟨rfl, rfl⟩
  | corrupt => exact ensures_pure.mpr ⟨rfl, rfl⟩

/-- The check before a file is removed leaves the store as it was. -/
theorem ensures_removable
    (reads : ∀ tick, env.chance .read tick = true)
    (fs : Fs)
    (gname : GdpName)
    (type : FileType) :
    Ensures (removable env gname type)
      (fun stat next => next.store = fs.store ∧
        Checks env fs.store (removeStat (fs.store.nodes gname) type) stat)
      fs := by
  rw [removable, removeStat.eq_def]
  split
  · exact ensures_pure.mpr ⟨rfl, Or.inl rfl⟩
  · next known =>
      refine (ensures_gdpfsFileOpenType env fs gname type).bind ?_
      rintro result next ⟨opens, _⟩
      cases result with
      | error stat =>
          obtain ⟨same, fails, reason⟩ := opens
          refine ensures_pure.mpr ⟨same, ?_⟩
          by_cases smooth : Smooth env ∧ fs.store.nextFree ≠ none
          · refine Or.inl ?_
            have status := reason smooth.1 smooth.2
            rw [openStat.eq_def] at status
            cases stored : fs.store.nodes gname with
            | none =>
                rw [stored] at status
                exact (Option.some.inj status).symm
            | some node =>
                rw [stored] at status
                dsimp only at status ⊢
                split at status
                · cases status
                · next differs =>
                    rw [if_pos (fun typed => differs (Or.inr typed))]
                    exact (Option.some.inj status).symm
          · exact Or.inr ⟨fails, smooth⟩
      | ok fh =>
          obtain ⟨unused, _, ⟨node, stored, typed⟩, reserved⟩ := opens
          rw [stored]
          dsimp only
          rw [if_neg (not_not.mpr (typed.resolve_left known))]
          split
          · refine (ensures_checkEmpty reads unused stored reserved).mono ?_
            exact fun stat next checked => ⟨checked.1, Or.inl checked.2⟩
          · rw [ensures_run_bind (run_close_opened unused reserved)]
            exact ensures_pure.mpr ⟨rfl, Or.inl rfl⟩

/-- The check before a file is replaced leaves the store as it was. -/
theorem ensures_replaceable
    (reads : ∀ tick, env.chance .read tick = true)
    (fs : Fs)
    (gname : GdpName)
    (f1type : FileType) :
    Ensures (replaceable env gname f1type)
      (fun stat next => next.store = fs.store ∧
        Checks env fs.store (replaceStat (fs.store.nodes gname) f1type) stat)
      fs := by
  rw [replaceable, replaceStat.eq_def]
  refine (ensures_gdpfsFileOpenType env fs gname .unknown).bind ?_
  rintro result next ⟨opens, _⟩
  cases result with
  | error stat =>
      obtain ⟨same, fails, reason⟩ := opens
      refine ensures_pure.mpr ⟨same, ?_⟩
      by_cases smooth : Smooth env ∧ fs.store.nextFree ≠ none
      · refine Or.inl ?_
        have status := reason smooth.1 smooth.2
        rw [openStat.eq_def] at status
        cases stored : fs.store.nodes gname with
        | none =>
            rw [stored] at status
            exact (Option.some.inj status).symm
        | some node =>
            rw [stored] at status
            cases status
      · exact Or.inr ⟨fails, smooth⟩
  | ok fh =>
      obtain ⟨unused, _, ⟨node, stored, _⟩, reserved⟩ := opens
      have opened := openOn_withHandle stored reserved
      have reserved : (next.later 1).store = fs.store.withHandle fh gname :=
        reserved
      have close := run_close_opened unused reserved
      rw [stored, ensures_run_bind opened.run_gdpfsFileGetInfo]
      cases informs : env.chance .info next.tick with
      | false =>
          rw [if_neg Bool.false_ne_true, ensures_run_bind close]
          refine ensures_pure.mpr ⟨rfl, Or.inr ⟨rfl, fun smooth => ?_⟩⟩
          rw [smooth.1 .info next.tick] at informs
          cases informs
      | true =>
          rw [if_pos rfl]
          dsimp only
          split
          · rw [ensures_run_bind close]
            exact ensures_pure.mpr ⟨rfl, Or.inl rfl⟩
          · split
            · refine (ensures_checkEmpty reads unused stored reserved).mono ?_
              exact fun stat next checked => ⟨checked.1, Or.inl checked.2⟩
            · rw [ensures_run_bind close]
              exact ensures_pure.mpr ⟨rfl, Or.inl rfl⟩

end Checks

end Dir
end Gdpfs
