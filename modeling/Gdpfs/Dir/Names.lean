import Gdpfs.Dir.Walk

/-!
# Names of every length

A walk copies every component to an array of 256 bytes whatever its length, an
entry keeps the first 255 bytes of a name, and a search compares whole names.
-/

namespace Gdpfs
namespace Dir

open Log File Effect

/-! ## Copies -/

/-- What was copied since a state stays inside its arrays. -/
def CopiesStay (before after : Fs) : Prop :=
  ∃ made, after.copies = made ++ before.copies ∧ ∀ copy ∈ made, copy.inBounds

theorem copiesStay_iff
    {before after : Fs}
    {made : List Copy}
    (copied : after.copies = made ++ before.copies) :
    CopiesStay before after ↔ ∀ copy ∈ made, copy.inBounds := by
  constructor
  · rintro ⟨made', copied', inside⟩
    rw [copied] at copied'
    rw [List.append_cancel_right copied']
    exact inside
  · exact fun inside => ⟨made, copied, inside⟩

/-- Copies of components stay inside the array unless a component is longer than
`NAME_MAX_GDPFS`. -/
theorem copiesStay_names
    {before after : Fs}
    {names : List (List UInt8)}
    (copied : after.copies = (names.map nameCopy).reverse ++ before.copies) :
    CopiesStay before after ↔ ∀ name ∈ names, name.length ≤ nameMaxGdpfs := by
  rw [copiesStay_iff copied]
  constructor
  · intro inside name member
    have stays := inside (nameCopy name)
      (List.mem_reverse.mpr (List.mem_map_of_mem member))
    exact Nat.le_of_succ_le_succ stays
  · intro short copy member
    obtain ⟨name, named, rfl⟩ := List.mem_map.mp (List.mem_reverse.mp member)
    exact Nat.succ_le_succ (short name named)

/-- `gdpfs_dir_open_file_at_path` copies inside its array. -/
def OpenStays (env : DirEnv) (fs : Fs) (path : List UInt8) (type : FileType) :
    Prop :=
  Ensures (gdpfsDirOpenFileAtPath env path type)
    (fun _ next => CopiesStay fs next) fs

/-- `_add_at_offset` copies inside its array. -/
def AddStays (env : DirEnv) (fs : Fs) (fh offset : Nat) (name : List UInt8)
    (gname : GdpName) : Prop :=
  Ensures (addAtOffset env fh offset name gname)
    (fun _ next => CopiesStay fs next) fs

/-- `gdpfs_dir_read` copies inside its array. -/
def ReadStays (env : DirEnv) (fs : Fs) (fh offset : Nat) : Prop :=
  Ensures (gdpfsDirRead env fh offset) (fun _ next => CopiesStay fs next) fs

section Copies

variable {env : DirEnv} {fs : Fs}

theorem openStays_of_short
    (type : FileType)
    (short : ∀ name ∈ components path, name.length ≤ nameMaxGdpfs) :
    OpenStays env fs path type := by
  refine (returns_gdpfsDirOpenFileAtPath path type).mono ?_
  rintro result next ⟨_, names, early, copied⟩
  rw [copiesStay_names copied]
  exact fun name member => short name (early.subset member)

theorem openStays_iff
    (smooth : Smooth env)
    (spare : fs.store.nextFree ≠ none)
    (root : hasType fs.store env.rootLogGname .dir = true)
    (rest : List UInt8)
    (type : FileType) :
    OpenStays env fs (slash :: rest) type ↔
      ∀ name ∈ lookedUp fs.store env.rootLogGname (components rest),
        name.length ≤ nameMaxGdpfs := by
  obtain ⟨result, next, run, _, copied⟩ :=
    ensures_gdpfsDirOpenFileAtPath smooth spare root rest type
  rw [OpenStays, ensures_of_run run, copiesStay_names copied]

theorem OpenOn.addStays
    {node : Node}
    (opened : OpenOn fs fh dir node)
    (offset : Nat)
    (name : List UInt8)
    (gname : GdpName) :
    AddStays env fs fh offset name gname := by
  have copied : OpenOn
      { fs with copies := ⟨nameMaxGdpfs + 1, nameMaxGdpfs⟩ :: fs.copies }
      fh dir node := ⟨opened.handle, opened.node⟩
  have stays : ∀ copy ∈ [(⟨nameMaxGdpfs + 1, nameMaxGdpfs⟩ : Copy)],
      copy.inBounds := by decide
  rw [AddStays, addAtOffset, ensures_bind, copyName, ensures_bind, ensures_get,
    ensures_set, gdpfsFileWrite, ensures_bind,
    ensures_run_bind copied.run_fileOf]
  dsimp only
  rw [ensures_bind, ensures_get, ensures_run_bind (run_succeeds .write)]
  split
  · exact ⟨_, _, rfl, _, _, rfl, [⟨nameMaxGdpfs + 1, nameMaxGdpfs⟩], rfl, stays⟩
  · exact ⟨_, _, rfl, _, _, rfl, [⟨nameMaxGdpfs + 1, nameMaxGdpfs⟩], rfl, stays⟩

/-- `gdpfs_dir_read` copies if it finds an entry. -/
theorem copies_nextIn
    (whole : Bool)
    (offset : Nat)
    (table : List PhysEnt) :
    (∀ copy ∈ (nextIn whole offset table).copies, copy.inBounds) ↔
      ∀ ent ∈ table, ent.inUse = false := by
  induction table generalizing offset with
  | nil =>
      refine iff_of_true ?_ ?_
      · cases whole with
        | false => exact fun copy impossible => absurd impossible List.not_mem_nil
        | true => exact fun copy impossible => absurd impossible List.not_mem_nil
      · exact fun ent impossible => absurd impossible List.not_mem_nil
  | cons first rest inductionHypothesis =>
      rw [nextIn, List.forall_mem_cons]
      cases first.inUse with
      | true =>
          rw [if_pos rfl]
          refine iff_of_false ?_ ?_
          · intro inside
            exact absurd (inside _ List.mem_cons_self) (by decide)
          · rintro ⟨⟨⟩, _⟩
      | false =>
          rw [if_neg Bool.false_ne_true, inductionHypothesis]
          exact ⟨fun free => ⟨rfl, free⟩, fun both => both.2⟩

theorem OpenOn.readStays_iff
    {node : Node}
    (opened : OpenOn fs fh dir node)
    (reads : ∀ tick, env.chance .read tick = true)
    (offset : Nat) :
    ReadStays env fs fh offset ↔
      ∀ ent ∈ slots (node.contents.drop offset), ent.inUse = false := by
  obtain ⟨read, next, run, rfl, _, copied⟩ :=
    ensures_gdpfsDirRead reads opened offset
  rw [ReadStays, ensures_of_run run, copiesStay_iff copied, copies_nextIn]

end Copies

/-! ## Finding what was created -/

/-- How many entries hold a name, as far as an entry can hold it. -/
def entriesLike (contents name : List UInt8) : Nat :=
  (slots contents).countP fun ent =>
    ent.inUse && ent.text == (cstr name).take nameMaxGdpfs

/-- After a file was created, a search in the same directory for its name finds
it, and no other entry has the name. -/
def CreateFinds (env : DirEnv) (fs : Fs) (filepath : List UInt8)
    (type : FileType) (stores : Bool) (perm : Nat) (dir : GdpName) : Prop :=
  Allows (gdpfsDirCreateFileAtPath env filepath type stores perm)
    (fun created next => ∀ fh gname, created.fh = some fh →
      next.store.fhs fh = some gname →
      (∀ reader, Ensures (findInsertOffset env reader (basename filepath))
        (fun found _ => found.file = some gname)
        { next with store := next.store.withHandle reader dir }) ∧
      ∃ node, next.store.nodes dir = some node ∧
        entriesLike node.contents (basename filepath) = 1) fs

section Create

variable {contents name : List UInt8}

theorem take_cstr_eq_self :
    (cstr name).take nameMaxGdpfs = cstr name ↔
      (cstr name).length ≤ nameMaxGdpfs :=
  List.take_eq_self_iff _

/-- A search for a name whose entry was added. -/
theorem file_findIn_insert
    (whole : contents.length % physSize = 0)
    (absent : ¬InUse contents name)
    (gname : GdpName) :
    (findIn (overwrite contents
        (physSize * (slots contents).findIdx PhysEnt.isFree)
        (PhysEnt.named name gname).bytes) name).file = some gname ↔
      (cstr name).length ≤ nameMaxGdpfs := by
  have others := slots_insert whole (PhysEnt.named name gname)
  rw [← take_cstr_eq_self, ← PhysEnt.isNamed_named name name gname]
  rcases findIn_cases (overwrite contents
      (physSize * (slots contents).findIdx PhysEnt.isFree)
      (PhysEnt.named name gname).bytes) name with
    ⟨before, ent, after, split, named, _, found⟩ | ⟨missing, _, found⟩ |
    ⟨missing, _, found⟩
  · have isNew : ent = PhysEnt.named name gname := by
      have member : ent ∈ before ++ ent :: after :=
        List.mem_append_right _ List.mem_cons_self
      rw [← split, others] at member
      rcases List.mem_append.mp member with early | late
      · exact absurd ⟨ent, List.mem_of_mem_take early, named⟩ absent
      · rcases List.mem_cons.mp late with same | later
        · exact same
        · exact absurd ⟨ent, List.mem_of_mem_drop later, named⟩ absent
    rw [found, ← isNew]
    exact iff_of_true (congrArg (some ∘ PhysEnt.gname) isNew) named
  all_goals
    rw [found]
    refine iff_of_false (by rintro ⟨⟩) fun named => missing ?_
    refine ⟨_, ?_, named⟩
    rw [others]
    exact List.mem_append_right _ List.mem_cons_self

/-- No other entry has a name that was not in the directory. -/
theorem entriesLike_insert
    (whole : contents.length % physSize = 0)
    (absent : ¬InUse contents name)
    (short : (cstr name).length ≤ nameMaxGdpfs)
    (gname : GdpName) :
    entriesLike (overwrite contents
        (physSize * (slots contents).findIdx PhysEnt.isFree)
        (PhysEnt.named name gname).bytes) name = 1 := by
  have none : ∀ ent ∈ slots contents,
      ¬(ent.inUse && ent.text == (cstr name).take nameMaxGdpfs) = true := by
    intro ent member named
    rw [take_cstr_eq_self.mpr short] at named
    exact absent ⟨ent, member, named⟩
  rw [entriesLike, slots_insert whole, List.countP_append,
    List.countP_cons_of_pos, List.countP_eq_zero.mpr, List.countP_eq_zero.mpr]
  · exact fun ent member => none ent (List.mem_of_mem_drop member)
  · exact fun ent member => none ent (List.mem_of_mem_take member)
  · rw [PhysEnt.text_named]
    exact beq_self_eq_true _

/-- The handle and the directory after a file was created. -/
theorem CreateFree.created
    {store next : Store}
    {created : Created}
    (free : CreateFree env store dirfh dir node offset name file created next)
    (handle : store.fhs dirfh = some dir)
    (opened : created.fh = some fh) :
    next.fhs fh = some (env.newNames store.created) ∧
      next.nodes dir = some (node.withContents (overwrite node.contents offset
        (PhysEnt.named name (env.newNames store.created)).bytes)) := by
  cases free with
  | fails kept notOk reason => cases opened
  | creates new unused below =>
      cases opened
      have apart : fh ≠ dirfh := by
        intro same
        rw [same, handle] at unused
        cases unused
      refine ⟨?_, Function.update_self _ _ _⟩
      exact (Function.update_of_ne apart _ _).trans
        (Function.update_self _ _ _)

/-- A search through a handle that is opened on a directory. -/
theorem ensures_find_file
    {next : Fs}
    (reads : ∀ tick, env.chance .read tick = true)
    (stored : next.store.nodes dir = some node)
    (reader : Nat)
    (name : List UInt8)
    (gname : GdpName) :
    Ensures (findInsertOffset env reader name)
        (fun found _ => found.file = some gname)
        { next with store := next.store.withHandle reader dir } ↔
      (findIn node.contents name).file = some gname := by
  have opened : OpenOn
      { next with store := next.store.withHandle reader dir } reader dir node :=
    openOn_withHandle stored rfl
  obtain ⟨found, last, run, rfl, _⟩ :=
    ensures_findInsertOffset reads opened name
  exact ensures_of_run run

variable {env : DirEnv} {fs between : Fs} {filepath : List UInt8} {dirfh : Nat}
  {dir : GdpName} {node : Node} {type : FileType} {stores : Bool} {perm : Nat}

/-- A file with a name that fits into an entry is found. -/
theorem ParentOpened.createFinds_of_short
    (parent : ParentOpened env fs filepath dirfh between dir node)
    (serves : Serves env)
    (short : (cstr (basename filepath)).length ≤ nameMaxGdpfs) :
    CreateFinds env fs filepath type stores perm dir := by
  rcases findIn_cases node.contents (basename filepath) with
    ⟨before, ent, after, _, _, _, found⟩ | ⟨_, _, corrupt⟩ |
    ⟨absent, whole, free⟩
  · cases stores with
    | false =>
        intro created next run
        have returns : Ensures (gdpfsDirCreateFileAtPath env filepath type false
            perm) (fun _ _ => True) fs := ⟨created, next, run, trivial⟩
        exact absurd returns
          (parent.not_ensures_create_null serves.reads found)
    | true =>
        refine (parent.ensures_create_exists serves.reads found).allows.mono ?_
        rintro _ next ⟨rfl, _⟩ fh gname ⟨⟩
  · refine (parent.ensures_create_corrupt serves.reads corrupt).allows.mono ?_
    rintro _ next ⟨rfl, _⟩ fh gname ⟨⟩
  · refine (parent.ensures_create_free serves.reads serves.writes
      free).allows.mono ?_
    intro created next outcome fh gname opened handle
    obtain ⟨isNew, stored⟩ :=
      outcome.created parent.opened.handle opened
    rw [isNew] at handle
    cases handle
    refine ⟨fun reader => ?_, _, stored, ?_⟩
    · rw [ensures_find_file serves.reads stored]
      exact (file_findIn_insert whole absent _).mpr short
    · exact entriesLike_insert whole absent short _

/-- A file with a longer name is not found. -/
theorem ParentOpened.short_of_createFinds
    (parent : ParentOpened env fs filepath dirfh between dir node)
    (smooth : Smooth env)
    (whole : node.contents.length % physSize = 0)
    (absent : ¬InUse node.contents (basename filepath))
    (spare : between.store.nextFree ≠ none)
    (new : between.store.nodes (env.newNames between.store.created) = none)
    (finds : CreateFinds env fs filepath type stores perm dir) :
    (cstr (basename filepath)).length ≤ nameMaxGdpfs := by
  rcases findIn_cases node.contents (basename filepath) with
    ⟨before, ent, after, split, named, _, _⟩ | ⟨_, torn, _⟩ | ⟨_, _, free⟩
  · refine absurd ⟨ent, ?_, named⟩ absent
    rw [split]
    exact List.mem_append_right _ List.mem_cons_self
  · exact absurd whole torn
  · obtain ⟨created, next, run, outcome⟩ :=
      parent.ensures_create_free (smooth .read) (smooth .write) free
    have holds := finds created next run
    have creates : ∃ fh, created.fh = some fh := by
      generalize next.store = after at outcome
      cases outcome with
      | fails kept notOk reason => exact absurd new (reason smooth spare)
      | creates _ _ _ => exact ⟨_, rfl⟩
    obtain ⟨fh, opened⟩ := creates
    obtain ⟨handle, stored⟩ := outcome.created parent.opened.handle opened
    obtain ⟨search, _⟩ := holds fh _ opened handle
    have found := (ensures_find_file (smooth .read) stored 0 _ _).mp (search 0)
    exact (file_findIn_insert whole absent _).mp found

end Create

/-! ## Names that fit -/

/-- A walk copies inside its array exactly if every component that it looks up
has at most `NAME_MAX_GDPFS` bytes, `_add_at_offset` always does, and
`gdpfs_dir_read` exactly if it finds no entry in use; and a file that was created
is found under its name exactly if the name has at most `NAME_MAX_GDPFS`
bytes. -/
theorem names_of_every_length
    (env : DirEnv)
    (fs : Fs) :
    (∀ path type,
      (∀ name ∈ components path, name.length ≤ nameMaxGdpfs) →
      OpenStays env fs path type) ∧
    (∀ rest type, Smooth env → fs.store.nextFree ≠ none →
      hasType fs.store env.rootLogGname .dir = true →
      (OpenStays env fs (slash :: rest) type ↔
        ∀ name ∈ lookedUp fs.store env.rootLogGname (components rest),
          name.length ≤ nameMaxGdpfs)) ∧
    (∀ fh dir node offset name gname, OpenOn fs fh dir node →
      AddStays env fs fh offset name gname) ∧
    (∀ fh dir node offset, OpenOn fs fh dir node →
      (∀ tick, env.chance .read tick = true) →
      (ReadStays env fs fh offset ↔
        ∀ ent ∈ slots (node.contents.drop offset), ent.inUse = false)) ∧
    (∀ filepath dirfh between dir node type stores perm,
      ParentOpened env fs filepath dirfh between dir node → Serves env →
      (cstr (basename filepath)).length ≤ nameMaxGdpfs →
      CreateFinds env fs filepath type stores perm dir) ∧
    (∀ filepath dirfh between dir node type stores perm,
      ParentOpened env fs filepath dirfh between dir node → Smooth env →
      node.contents.length % physSize = 0 →
      ¬InUse node.contents (basename filepath) →
      between.store.nextFree ≠ none →
      between.store.nodes (env.newNames between.store.created) = none →
      (CreateFinds env fs filepath type stores perm dir ↔
        (cstr (basename filepath)).length ≤ nameMaxGdpfs)) := by
  refine ⟨?_, ?_, ?_, ?_, ?_, ?_⟩
  · intro path type short
    exact openStays_of_short type short
  · intro rest type smooth spare root
    exact openStays_iff smooth spare root rest type
  · intro fh dir node offset name gname opened
    exact opened.addStays offset name gname
  · intro fh dir node offset opened reads
    exact opened.readStays_iff reads offset
  · intro filepath dirfh between dir node type stores perm parent serves
      short
    exact parent.createFinds_of_short serves short
  · intro filepath dirfh between dir node type stores perm parent smooth
      whole absent spare new
    constructor
    · exact parent.short_of_createFinds smooth whole absent spare new
    · exact parent.createFinds_of_short ⟨smooth .read, smooth .write⟩

theorem smooth_calm : Smooth DirEnv.calm := fun _ _ => rfl

theorem spare_initial (env : DirEnv) :
    (Fs.initial env).store.nextFree ≠ none := by
  have unused : (Fs.initial env).store.fhs 0 = none := rfl
  exact nextFree_ne_none unused (by decide)

/-- There are at least two handles. -/
theorem spare_withHandle (env : DirEnv) (fh : Nat) (dir : GdpName) :
    ((Fs.initial env).store.withHandle fh dir).nextFree ≠ none := by
  by_cases first : fh = 0
  · have unused : ((Fs.initial env).store.withHandle fh dir).fhs 1 = none := by
      rw [first]
      rfl
    exact nextFree_ne_none unused (by decide)
  · have unused : ((Fs.initial env).store.withHandle fh dir).fhs 0 = none :=
      Function.update_of_ne (Ne.symm first) _ _
    exact nextFree_ne_none unused (by decide)

/-- A name of 256 bytes. -/
def longName : List UInt8 := List.replicate 256 97

/-- The parent of a file in the root of a new file system. -/
theorem parentOpened_initial
    (name : List UInt8)
    (leads : parentOf DirEnv.calm (Fs.initial DirEnv.calm).store
      (slash :: name) = some DirEnv.calm.rootLogGname) :
    ∃ dirfh between, ParentOpened DirEnv.calm (Fs.initial DirEnv.calm)
      (slash :: name) dirfh between DirEnv.calm.rootLogGname
      ⟨.dir, rootDefaultPerm, []⟩ :=
  parentOpened_of_leads smooth_calm (spare_initial _) (by decide) leads
    (by decide)

/-- A name of 255 bytes. -/
def fullName : List UInt8 := List.replicate 255 97

/-- A name that fills its array is handled. -/
theorem names_of_every_length_short :
    fullName.length = nameMaxGdpfs ∧
      OpenStays DirEnv.calm (Fs.initial DirEnv.calm) (slash :: fullName)
        .unknown ∧
      ReadStays DirEnv.calm (oneDirectory []) 0 0 ∧
      CreateFinds DirEnv.calm (Fs.initial DirEnv.calm) (slash :: fullName)
        .regular true 0 DirEnv.calm.rootLogGname := by
  obtain ⟨opens, _, _, _, creates, _⟩ :=
    names_of_every_length DirEnv.calm (Fs.initial DirEnv.calm)
  obtain ⟨_, _, _, reads, _⟩ :=
    names_of_every_length DirEnv.calm (oneDirectory [])
  obtain ⟨dirfh, between, parent⟩ := parentOpened_initial fullName
    (by decide +kernel)
  refine ⟨by decide +kernel, opens _ _ (by decide +kernel), ?_, ?_⟩
  · exact (reads _ _ _ _ ⟨rfl, rfl⟩ fun _ => rfl).mpr (by decide)
  · exact creates _ _ _ _ _ _ _ _ parent serves_calm (by decide +kernel)

/-- A longer one is copied behind an array and not found again, and reading any
entry writes behind the array for its name. -/
theorem long_name_not_handled :
    ¬OpenStays DirEnv.calm (Fs.initial DirEnv.calm) (slash :: longName)
        .unknown ∧
      ¬ReadStays DirEnv.calm
        (oneDirectory (PhysEnt.named [97] DirEnv.calm.rootLogGname).bytes) 0
        0 ∧
      ¬CreateFinds DirEnv.calm (Fs.initial DirEnv.calm) (slash :: longName)
        .regular true 0 DirEnv.calm.rootLogGname := by
  refine ⟨?_, ?_, ?_⟩
  · rw [openStays_iff smooth_calm (spare_initial _) (by decide)]
    decide +kernel
  · rw [OpenOn.readStays_iff ⟨rfl, rfl⟩ fun _ => rfl]
    decide +kernel
  · obtain ⟨dirfh, between, parent⟩ := parentOpened_initial longName
      (by decide +kernel)
    obtain ⟨_, _, reserved⟩ := parent.reserved
    have absent : ¬InUse [] (basename (slash :: longName)) := by
      rintro ⟨ent, impossible, _⟩
      exact absurd impossible List.not_mem_nil
    have spare : between.store.nextFree ≠ none := by
      rw [reserved]
      exact spare_withHandle _ _ _
    have new : between.store.nodes (DirEnv.calm.newNames between.store.created) =
        none := by
      have fresh : (Fs.initial DirEnv.calm).store.nodes
          (DirEnv.calm.newNames 0) = none := by decide
      rw [reserved]
      exact fresh
    intro finds
    have short := parent.short_of_createFinds smooth_calm rfl absent spare new
      finds
    revert short
    decide +kernel

end Dir
end Gdpfs
