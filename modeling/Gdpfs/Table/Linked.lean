import Gdpfs.List.Edit
import Gdpfs.Store.Simulation
import Gdpfs.Table.Safety

/-!
# The recently closed files as a linked list (`gdpfs_file.c`, `list.c`)

The list of recently closed files has its links in the files that it lists.
Here the steps that change the list do so through the operations of `list.c`;
they go in step with the steps that change a list of files.
-/

namespace Gdpfs
namespace Table
namespace Linked

open Effect Links Gdpfs.Lists

/-- What stops a step. -/
inductive LinkedFault
  | table (fault : TableFault)
  | list (fault : ListFault)
  deriving DecidableEq, Repr

/-- The table with the links of the elements in its files.  The list of files
in the table is not used. -/
structure LinkedTable where
  table : FileTable
  links : Elems

/-- Code that works on the table and the links. -/
abbrev LinkedM := StateT LinkedTable (Except LinkedFault)

/-- `recently_closed`, whose header elements come before the files. -/
def recentlyClosed : ListHead := ⟨0, 1⟩

/-- The address of `rc_elem` in a file. -/
def rcElem (file : Nat) : Nat := file + 2

/-- `list_entry`. -/
def listEntry (elem : Nat) : Nat := elem - 2

/-- Memory of zeros. -/
def zeroLinks : Elems := fun _ => ⟨none, none⟩

/-- The links after `list_init`. -/
def LinkedTable.empty : LinkedTable where
  table := FileTable.empty
  links := setNext (setPrev (setNext (setPrev zeroLinks recentlyClosed.head
    none) recentlyClosed.head (some recentlyClosed.tail)) recentlyClosed.tail
      (some recentlyClosed.head)) recentlyClosed.tail none

/-- Code that works on the table only. -/
def onTable (action : TableM α) : LinkedM α := do
  let state ← get
  match action.run state.table with
  | .ok (value, table) => do
      set { state with table := table }
      pure value
  | .error fault => throw (.table fault)

/-- Code that works on the links only. -/
def onLinks (action : ListM α) : LinkedM α := do
  let state ← get
  match action.run state.links with
  | .ok (value, links) => do
      set { state with links := links }
      pure value
  | .error fault => throw (.list fault)

/-- Assign to `recently_closed` of a file. -/
def setFlag (file : Nat) (flag : Bool) : TableM Unit := do
  let table ← get
  set (table.setFile file
    { table.files file with recentlyClosed := flag })

/-- Assign to `recently_closed_size`. -/
def setSize (size : Int) : TableM Unit := do
  let table ← get
  set { table with recentlyClosedSize := size }

/-- `_recently_closed_revive`. -/
def recentlyClosedRevive (file : Nat) : LinkedM Unit := do
  let state ← get
  if (state.table.files file).recentlyClosed then do
    onTable (setFlag file false)
    let _ ← onLinks (listRemove (rcElem file))
    onTable (setSize (state.table.recentlyClosedSize - 1))
  else throw (.table .assertion)

/-- The section of `open_file` under `open_lock`. -/
def openFile (name : Nat) : LinkedM Unit := do
  let state ← get
  match state.table.fileHash name with
  | none => do
      onTable (newFile name)
      onTable (fileRefHandle state.table.next)
  | some file =>
      if (state.table.files file).freed then throw (.table .useAfterFree)
      else do
        if (state.table.files file).recentlyClosed then
          recentlyClosedRevive file
        else pure ()
        onTable (fileRefHandle file)

/-- The call at this point goes on with the file flagged. -/
def takeInsert (file : Nat) : TableM Unit :=
  onFile file (fun entry => 0 < entry.inserting) fun entry =>
    { entry with
      inserting := entry.inserting - 1, recentlyClosed := true }

/-- The file that was popped is not listed any more and goes on to
`_file_dealloc`. -/
def evict (old : Nat) : TableM Unit := do
  let table ← get
  let entry := table.files old
  set (table.setFile old
    { entry with
      recentlyClosed := false, evicting := entry.evicting + 1 })

/-- Push a file to the front of the list. -/
def pushFront (file : Nat) : LinkedM Unit := do
  onTable (takeInsert file)
  onLinks (listPushFront recentlyClosed (rcElem file))

/-- Pop the file at the back of the list and go on to `_file_dealloc`. -/
def popBack : LinkedM Unit := do
  let elem ← onLinks (listPopBack recentlyClosed)
  onTable (evict (listEntry elem))

/-- The section of `_recently_closed_insert`. -/
def recentlyClosedInsert (file : Nat) : LinkedM Unit := do
  pushFront file
  let state ← get
  if state.table.recentlyClosedSize ≤ rcCap ∧
      0 ≤ state.table.recentlyClosedSize then
    if state.table.recentlyClosedSize = rcCap then popBack
    else onTable (setSize (state.table.recentlyClosedSize + 1))
  else throw (.table .assertion)

/-- Take a step. -/
def run : TableOp → LinkedM Unit
  | .opens name => openFile name
  | .insert file => recentlyClosedInsert file
  | .close file => onTable (fileClose file)
  | .write file => onTable (fileWrite file)
  | .append file => onTable (fileAppend file)
  | .appended file => onTable (freeFileref file)
  | .unref file => onTable (fileUnref file)
  | .assertNotClosed file => onTable (Table.assertNotClosed file)
  | .dealloc file dirty => onTable (fileDealloc file dirty)
  | .finish file => onTable (chkptFinish file)
  | .check file => onTable (chkptCheck file)
  | .unhash file => onTable (chkptUnhash file)
  | .release file => onTable (chkptRelease file)

/-! ## Code that does not look at the list -/

/-- The table with another list of files. -/
def relist (table : FileTable) (files : List Nat) : FileTable :=
  { table with recentlyClosed := files }

/-- The list of files has no influence on the code and stays as it is. -/
def Blind (action : TableM α) : Prop :=
  ∀ table files, action.run (relist table files) =
    (action.run table).map fun result => (result.1, relist result.2 files)

theorem Blind.bind
    {action : TableM α}
    {rest : α → TableM β}
    (first : Blind action)
    (second : ∀ value, Blind (rest value)) :
    Blind (action >>= rest) := by
  intro table files
  rw [StateT.run_bind, StateT.run_bind, first]
  cases action.run table with
  | error fault => rfl
  | ok result => exact second result.1 result.2 files

theorem blind_get_bind
    {rest : FileTable → TableM α}
    (blind : ∀ table files, (rest (relist table files)).run
        (relist table files) =
      ((rest table).run table).map fun result =>
        (result.1, relist result.2 files)) :
    Blind (get >>= rest) :=
  blind

theorem blind_onFile
    (file : Nat)
    (ready : FileEntry → Bool)
    (change : FileEntry → FileEntry) :
    Blind (onFile file ready change) := by
  refine blind_get_bind fun table files => ?_
  change (if (table.files file).freed then _ else _ : TableM Unit).run _ = _
  split
  · rfl
  · change (if ready (table.files file) then _ else _ : TableM Unit).run _ = _
    split <;> rfl

theorem blind_assertNotClosed (file : Nat) :
    Blind (Table.assertNotClosed file) := by
  refine blind_get_bind fun table files => ?_
  change (if 0 < (table.files file).asserting ∧
    (table.files file).recentlyClosed = true then _ else _ : TableM Unit).run
      _ = _
  split
  · rfl
  · exact blind_onFile _ _ _ table files

theorem blind_chkptUnhash (file : Nat) : Blind (chkptUnhash file) :=
  (blind_onFile _ _ _).bind fun _ => blind_get_bind fun _ _ => rfl

theorem blind_newFile (name : Nat) : Blind (newFile name) :=
  blind_get_bind fun _ _ => rfl

theorem blind_fileRefHandle (file : Nat) : Blind (fileRefHandle file) :=
  blind_get_bind fun _ _ => rfl

/-- Code that does not look at the list leaves it as it is. -/
theorem Blind.keeps
    {action : TableM α}
    (blind : Blind action)
    {table next : FileTable}
    {value : α}
    (run : action.run table = .ok (value, next)) :
    next.recentlyClosed = table.recentlyClosed := by
  have same := blind table table.recentlyClosed
  have unchanged : relist table table.recentlyClosed = table := rfl
  rw [unchanged, run] at same
  have sameNext : next = relist next table.recentlyClosed := by
    injection same with same
    injection same
  rw [sameNext]
  rfl

/-! ## The links and the list -/

/-- The links represent the list of files. -/
structure Related (state : LinkedTable) (model : FileTable) : Prop where
  table : state.table = relist model []
  links : Represents state.links recentlyClosed
    (model.recentlyClosed.map rcElem)

/-- Both steps stop for the same reason, which is none of the list. -/
def SameFault (fault : LinkedFault) (fault' : TableFault) : Prop :=
  fault = .table fault'

/-- The end of a step. -/
abbrev Together (_ _ : Unit) : LinkedTable → FileTable → Prop := Related

section Steps

variable {state : LinkedTable} {model : FileTable} {file : Nat}

theorem run_onTable_ok
    {action : TableM α}
    {value : α}
    {table : FileTable}
    (run : action.run state.table = .ok (value, table)) :
    (onTable action).run state = .ok (value, { state with table := table }) := by
  rw [onTable, run_get_bind, run]
  rfl

theorem run_onTable_error
    {action : TableM α}
    {fault : TableFault}
    (run : action.run state.table = .error fault) :
    (onTable action).run state = .error (.table fault) := by
  rw [onTable, run_get_bind, run]
  rfl

theorem Ensures.onTable
    {action : TableM α}
    {post : α → LinkedTable → Prop}
    (ensures : Ensures action (fun value table =>
      post value { state with table := table }) state.table) :
    Ensures (onTable action) post state := by
  obtain ⟨value, table, run, holds⟩ := ensures
  exact ⟨value, _, run_onTable_ok run, holds⟩

theorem Ensures.onLinks
    {action : ListM α}
    {post : α → LinkedTable → Prop}
    (ensures : Ensures action (fun value links =>
      post value { state with links := links }) state.links) :
    Ensures (onLinks action) post state := by
  obtain ⟨value, links, run, holds⟩ := ensures
  refine ⟨value, { state with links := links }, ?_, holds⟩
  rw [Linked.onLinks, run_get_bind, run]
  rfl

/-- Code that does not look at the list goes in step with itself. -/
theorem follows_onTable
    {action : TableM Unit}
    (blind : Blind action)
    (related : Related state model) :
    Follows (onTable action) action Together SameFault state model := by
  have same := blind model []
  rw [← related.table] at same
  cases run : action.run model with
  | error fault =>
      rw [run] at same
      have stops := run_onTable_error same
      constructor
      · intro value next returns
        rw [stops] at returns
        cases returns
      · intro fault' again
        rw [stops] at again
        cases again
        exact ⟨fault, run, rfl⟩
  | ok result =>
      rw [run] at same
      have kept := blind.keeps run
      have returns : Ensures (onTable action)
          (fun _ next => Related next result.2) state := by
        refine ⟨_, _, run_onTable_ok same, ⟨rfl, ?_⟩⟩
        rw [kept]
        exact related.links
      exact returns.follows run fun _ _ holds => holds

/-- A file in the list, with the files before and after it. -/
theorem Consistent.erase
    {extra : Nat}
    (ok : Consistent extra model)
    (member : file ∈ model.recentlyClosed) :
    ∃ before after, model.recentlyClosed = before ++ file :: after ∧
      model.recentlyClosed.erase file = before ++ after := by
  obtain ⟨before, after, isList⟩ := List.append_of_mem member
  refine ⟨before, after, isList, ?_⟩
  have nodup := ok.nodup
  rw [isList] at nodup ⊢
  have notBefore : file ∉ before := fun inside =>
    (List.nodup_append.mp nodup).2.2 file inside file (by simp) rfl
  rw [List.erase_append_right _ notBefore, List.erase_cons_head]

/-- `_recently_closed_revive` takes the file out of the list. -/
theorem follows_recentlyClosedRevive
    (ok : TableOk model)
    (related : Related state model) :
    Follows (recentlyClosedRevive file) (Table.recentlyClosedRevive file)
      Together SameFault state model := by
  obtain ⟨sameTable, links⟩ := related
  refine follows_get_bind ?_
  have sameFlag : (state.table.files file).recentlyClosed =
      (model.files file).recentlyClosed := by rw [sameTable]; rfl
  dsimp only
  rw [sameFlag]
  cases isFlag : (model.files file).recentlyClosed with
  | false => exact follows_throw rfl
  | true =>
      obtain ⟨before, after, isList, isErased⟩ :=
        Consistent.erase ok ((ok.flags file).mp isFlag)
      rw [isList, List.map_append, List.map_cons] at links
      refine Ensures.follows ?_ rfl fun _ _ holds => holds
      rw [if_pos rfl, ensures_bind]
      refine Ensures.onTable ?_
      rw [setFlag, ensures_bind, ensures_get, ensures_set, ensures_bind]
      refine Ensures.onLinks ((ensures_remove links).mono ?_)
      rintro _ next ⟨-, removed, -⟩
      refine Ensures.onTable ?_
      rw [setSize, ensures_bind, ensures_get, ensures_set]
      refine ⟨?_, ?_⟩
      · rw [sameTable]
        rfl
      · rw [isErased, List.map_append]
        exact removed

theorem follows_openFile
    (ok : TableOk model)
    (related : Related state model)
    (name : Nat) :
    Follows (openFile name) (Table.openFile name) Together SameFault state
      model := by
  have sameTable := related.table
  refine follows_get_bind ?_
  have sameHash : state.table.fileHash name = model.fileHash name := by
    rw [sameTable]
    rfl
  have sameNext : state.table.next = model.next := by
    rw [sameTable]
    rfl
  rw [sameHash, sameNext]
  cases model.fileHash name with
  | none =>
      refine (follows_onTable (blind_newFile name) related).bind ?_
      intro _ _ next next' related'
      exact follows_onTable (blind_fileRefHandle _) related'
  | some file =>
      have sameFile : state.table.files file = model.files file := by
        rw [sameTable]
        rfl
      dsimp only
      rw [sameFile]
      split
      · exact follows_throw rfl
      · split
        · refine (follows_recentlyClosedRevive ok related).bind ?_
          intro _ _ next next' related'
          exact follows_onTable (blind_fileRefHandle _) related'
        · exact follows_onTable (blind_fileRefHandle _) related

theorem rcElem_injective : Function.Injective rcElem :=
  fun _ _ => Nat.add_right_cancel

theorem rcElem_notMem
    {files : List Nat}
    (notListed : file ∉ files) :
    rcElem file ∉ recentlyClosed.whole (files.map rcElem) := by
  intro member
  rcases List.mem_append.mp member with inFront | isTail
  · rcases List.mem_cons.mp inFront with isHead | inside
    · cases isHead
    · exact notListed ((List.mem_map_of_injective rcElem_injective).mp inside)
  · have isOne := List.mem_singleton.mp isTail
    simp only [rcElem, recentlyClosed] at isOne
    omega

/-- The file goes to the front of the list. -/
theorem follows_pushFront
    (ok : TableOk model)
    (related : Related state model) :
    Follows (pushFront file) (Table.pushFront file)
      (fun _ _ next next' => Related next next' ∧
        next'.recentlyClosed = file :: model.recentlyClosed) SameFault state
      model := by
  have inserts := (follows_onTable (blind_onFile file _ _) related).andAllows
    (allows_onFile (fun entry => 0 < entry.inserting) fun entry =>
      { entry with
        inserting := entry.inserting - 1, recentlyClosed := true })
  refine inserts.bind ?_
  rintro _ _ next _ ⟨⟨sameTable, links⟩, -, ready, rfl⟩
  simp only [decide_eq_true_eq] at ready
  have notListed : file ∉ model.recentlyClosed := by
    rw [← ok.flags, ((ok.each file).pending (by omega)).2]
    exact Bool.false_ne_true
  have pushes : Ensures (onLinks (listPushFront recentlyClosed (rcElem file)))
      (fun _ last => last.table = next.table ∧
        Represents last.links recentlyClosed
          ((file :: model.recentlyClosed).map rcElem)) next := by
    refine Ensures.onLinks ((ensures_listPushFront links
      (rcElem_notMem notListed)).mono ?_)
    rintro _ _ ⟨pushed, -⟩
    exact ⟨rfl, pushed⟩
  refine pushes.follows rfl ?_
  rintro _ last ⟨sameLast, pushed⟩
  refine ⟨⟨?_, pushed⟩, rfl⟩
  rw [sameLast, sameTable]
  rfl

/-- The file at the back of the list is the one that goes. -/
theorem follows_popBack
    (related : Related state model)
    (nonempty : model.recentlyClosed ≠ []) :
    Follows popBack Table.popBack Together SameFault state model := by
  obtain ⟨sameTable, links⟩ := related
  obtain ⟨front, old, isList⟩ : ∃ front old,
      model.recentlyClosed = front ++ [old] :=
    ⟨_, _, (List.dropLast_append_getLast nonempty).symm⟩
  have isLast : model.recentlyClosed.getLast? = some old := by
    rw [isList, List.getLast?_concat]
  have isFront : model.recentlyClosed.dropLast = front := by
    rw [isList, List.dropLast_concat]
  have run' : Table.popBack.run model = .ok ((),
      { model.setFile old
          { model.files old with
            recentlyClosed := false
            evicting := (model.files old).evicting + 1 } with
        recentlyClosed := front }) := by
    rw [Table.popBack, run_get_bind, isLast, ← isFront]
    rfl
  rw [isList, List.map_append] at links
  refine Ensures.follows ?_ run' fun _ _ holds => holds
  rw [popBack, ensures_bind]
  refine Ensures.onLinks ((ensures_listPopBack links).mono ?_)
  rintro _ next ⟨rfl, popped, -⟩
  refine Ensures.onTable ?_
  rw [evict, ensures_bind, ensures_get, ensures_set]
  refine ⟨?_, popped⟩
  rw [sameTable]
  rfl

theorem follows_recentlyClosedInsert
    (ok : TableOk model)
    (related : Related state model) :
    Follows (recentlyClosedInsert file) (Table.recentlyClosedInsert file)
      Together SameFault state model := by
  refine (follows_pushFront ok related).bind ?_
  rintro _ _ next next' ⟨related', isList⟩
  refine follows_get_bind ?_
  have sameSize : next.table.recentlyClosedSize =
      next'.recentlyClosedSize := by
    rw [related'.table]
    rfl
  rw [sameSize]
  split
  · split
    · refine follows_popBack related' ?_
      rw [isList]
      exact List.cons_ne_nil _ _
    · refine Ensures.follows ?_ rfl fun _ _ holds => holds
      refine Ensures.onTable ?_
      rw [setSize, ensures_bind, ensures_get, ensures_set]
      refine ⟨?_, related'.links⟩
      rw [related'.table]
      rfl
  · exact follows_throw rfl

/-- Every step goes in step with the one on the list of files. -/
theorem follows_run
    (ok : TableOk model)
    (related : Related state model)
    (op : TableOp) :
    Follows (run op) op.run Together SameFault state model := by
  cases op with
  | opens name => exact follows_openFile ok related name
  | insert file => exact follows_recentlyClosedInsert ok related
  | close file => exact follows_onTable (blind_onFile _ _ _) related
  | write file => exact follows_onTable (blind_onFile _ _ _) related
  | append file => exact follows_onTable (blind_onFile _ _ _) related
  | appended file => exact follows_onTable (blind_onFile _ _ _) related
  | unref file => exact follows_onTable (blind_onFile _ _ _) related
  | assertNotClosed file =>
      exact follows_onTable (blind_assertNotClosed file) related
  | dealloc file dirty => exact follows_onTable (blind_onFile _ _ _) related
  | finish file => exact follows_onTable (blind_onFile _ _ _) related
  | check file => exact follows_onTable (blind_onFile _ _ _) related
  | unhash file => exact follows_onTable (blind_chkptUnhash file) related
  | release file => exact follows_onTable (blind_onFile _ _ _) related

end Steps

/-! ## Runs -/

/-- `list_init` makes the links of an empty list. -/
theorem related_empty : Related LinkedTable.empty FileTable.empty := by
  refine ⟨rfl, ?_⟩
  obtain ⟨_, links, run, initial, -⟩ :=
    (@ensures_listInit zeroLinks recentlyClosed) (by decide)
  have isEmpty : links = LinkedTable.empty.links := by
    cases run
    rfl
  rw [isEmpty] at initial
  exact initial

/-- A run on the linked list is one on the list of files. -/
theorem related_of_reached
    {state : LinkedTable}
    (reached : Reached run
      (fun op state => avoidsWindows op state.table = true) LinkedTable.empty
      state) :
    ∃ model, Reached TableOp.run
      (fun op table => avoidsWindows op table = true) FileTable.empty model ∧
        Related state model := by
  refine Reached.follows Related SameFault related_empty ?_ ?_ reached
  · intro op state model related avoids
    rw [related.table] at avoids
    cases op <;> exact avoids
  · intro op state model _ related reached'
    exact follows_run (tableOk_of_reached reached') related op

/-- In a run that avoids the windows the linked list is intact at every step: no
step fails an assertion of the table or of the list or follows a null pointer,
and the links are those of a list of all files that are flagged, each of them
once and without a reference, as many as are counted. -/
theorem linked_list_intact
    {state : LinkedTable}
    (reached : Reached run
      (fun op state => avoidsWindows op state.table = true) LinkedTable.empty
      state) :
    (∀ op fault, (run op).run state = .error fault →
      fault = .table .notReady ∨ fault = .table .useAfterFree) ∧
    ∃ files : List Nat,
      Represents state.links recentlyClosed (files.map rcElem) ∧
      state.table.recentlyClosedSize = files.length ∧
      files.length ≤ rcCap ∧
      ∀ file, (file ∈ files ↔
          (state.table.files file).recentlyClosed = true) ∧
        (file ∈ files → (state.table.files file).refCount = 0) := by
  obtain ⟨model, reached', related⟩ := related_of_reached reached
  have ok := tableOk_of_reached reached'
  constructor
  · intro op fault stops
    obtain ⟨fault', stops', rfl⟩ :=
      (follows_run ok related op).stops fault stops
    cases fault' with
    | assertion => exact absurd stops' (ok.avoids_step op)
    | useAfterFree => exact .inr rfl
    | notReady => exact .inl rfl
  · have size := ok.size
    have cap := ok.cap
    refine ⟨model.recentlyClosed, related.links, ?_, by omega, ?_⟩
    · rw [related.table]
      change model.recentlyClosedSize = _
      omega
    · intro file
      rw [related.table]
      refine ⟨(ok.flags file).symm, fun member => ?_⟩
      exact (ok.each file).listed ((ok.flags file).mpr member)

/-- The list overflows and a file in it is opened again. -/
theorem linked_list_intact_overflow :
    ∃ state, Reached run
        (fun op state => avoidsWindows op state.table = true)
        LinkedTable.empty state ∧
      state.table.recentlyClosedSize = 255 ∧
      ∃ files : List Nat,
        Represents state.links recentlyClosed (files.map rcElem) ∧
        files.length = 255 ∧ 0 ∉ files ∧ 1 ∈ files ∧ 2 ∉ files := by
  obtain ⟨state, replayed, ends⟩ := (Option.any_eq_true _ _).mp
    (show (replay run (fun op state => avoidsWindows op state.table)
      (openAndClose 257 ++ [.opens 2]) LinkedTable.empty).any
        (fun state => decide (state.table.recentlyClosedSize = 255 ∧
          (state.table.files 0).recentlyClosed = false ∧
          (state.table.files 1).recentlyClosed = true ∧
          (state.table.files 2).recentlyClosed = false)) = true by
      decide +kernel)
  obtain ⟨size, zero, one, two⟩ := of_decide_eq_true ends
  have reached := reached_of_replay (fun _ _ avoids => avoids) replayed
  obtain ⟨-, files, rep, counted, -, listed⟩ := linked_list_intact reached
  refine ⟨state, reached, size, files, rep, by omega, ?_, ?_, ?_⟩
  · rw [(listed 0).1, zero]
    exact Bool.false_ne_true
  · rw [(listed 1).1, one]
  · rw [(listed 2).1, two]
    exact Bool.false_ne_true

end Linked
end Table
end Gdpfs
