import Gdpfs.Dir.Table

/-!
# The names of a directory

A book of the names that a directory should have: the file of each name and the
offset of its entry, and how many names there have been at once.  The slots of a
directory file keep to the book over every run of additions and removals.
-/

namespace Gdpfs
namespace Dir

open Log File Effect

/-- Names that fit into an entry. -/
def Clean (name : List UInt8) : Prop :=
  name.length ≤ nameMaxGdpfs ∧ 0 ∉ name

instance (name : List UInt8) : Decidable (Clean name) :=
  inferInstanceAs (Decidable (_ ∧ _))

/-- An operation on a directory. -/
inductive TableOp
  /-- `_find_insert_offset`, and `_add_at_offset` at the offset it returned. -/
  | add (name : List UInt8) (gname : GdpName)
  /-- `gdpfs_dir_remove`. -/
  | remove (name : List UInt8) (type : FileType)
  deriving DecidableEq, Repr

/-- The name that an operation is about. -/
def TableOp.name : TableOp → List UInt8
  | .add name _ => name
  | .remove name _ => name

/-- Run an operation on the directory of a handle.  The status is handed back
with the offset that was searched for. -/
def TableOp.run (env : DirEnv) (fh : Nat) : TableOp → DirM (Stat × Nat)
  | .add name gname => do
      let found ← findInsertOffset env fh name
      match found with
      | .fileExists offset _ | .free offset => do
          let stat ← addAtOffset env fh offset name gname
          pure (stat, offset)
      | .corrupt => pure (.corrupt, 0)
  | .remove name type => do
      let stat ← gdpfsDirRemove env fh name type
      pure (stat, 0)

/-! ## The book -/

/-- The names of a directory. -/
structure Book where
  /-- The file that a name was last bound to, and the offset of its entry since
  the name was added. -/
  bound : List UInt8 → Option (GdpName × Nat)
  /-- How many names are bound. -/
  count : Nat
  /-- The largest number of names bound at once. -/
  peak : Nat

/-- The book of an empty directory. -/
def Book.empty : Book := ⟨fun _ => none, 0, 0⟩

/-- A name is bound to a file.  Its offset is the given one, unless the name was
bound already. -/
def Book.bind (book : Book) (name : List UInt8) (gname : GdpName)
    (offset : Nat) : Book :=
  match book.bound name with
  | some (_, old) =>
      { book with
        bound := Function.update book.bound name (some (gname, old)) }
  | none =>
      { bound := Function.update book.bound name (some (gname, offset))
        count := book.count + 1
        peak := max book.peak (book.count + 1) }

/-- A name is not bound any more. -/
def Book.unbind (book : Book) (name : List UInt8) : Book :=
  match book.bound name with
  | some _ =>
      { book with
        bound := Function.update book.bound name none
        count := book.count - 1 }
  | none => book

/-- The book after an operation that returned a status and an offset. -/
def Book.after (book : Book) (op : TableOp) (stat : Stat) (offset : Nat) :
    Book :=
  match op with
  | .add name gname => if stat.isOk then book.bind name gname offset else book
  | .remove name _ => if stat.isOk then book.unbind name else book

/-- The state of the file system, and the book. -/
structure Session where
  fs : Fs
  book : Book

/-- Run an operation and keep the book. -/
def TableOp.step (env : DirEnv) (fh : Nat) (op : TableOp) :
    StateT Session (Except DirFault) Stat := do
  let session ← get
  match (op.run env fh).run session.fs with
  | .ok ((stat, offset), fs) => do
      set (⟨fs, session.book.after op stat offset⟩ : Session)
      pure stat
  | .error fault => throw fault

/-! ## Slots that keep to the book -/

/-- The slot at an index binds a name to a file. -/
def Binds (contents : List UInt8) (index : Nat) (name : List UInt8)
    (gname : GdpName) : Prop :=
  ∃ ent, (slots contents)[index]? = some ent ∧ ent.inUse = true ∧
    ent.text = name ∧ ent.gname = gname

/-- The slots of a directory file are those of the book. -/
structure Tracks (contents : List UInt8) (book : Book) : Prop where
  whole : contents.length % physSize = 0
  unique : ∀ name index other gname gname', Binds contents index name gname →
    Binds contents other name gname' → index = other
  bound : ∀ name gname offset, book.bound name = some (gname, offset) ↔
    ∃ index, Binds contents index name gname ∧ offset = physSize * index
  count : (slots contents).countP PhysEnt.inUse = book.count
  short : (slots contents).length ≤ book.peak
  most : book.count ≤ book.peak

theorem tracks_empty : Tracks [] Book.empty := by
  have noSlots : ∀ index name gname, ¬Binds [] index name gname := by
    rintro index name gname ⟨ent, found, _⟩
    cases found
  refine ⟨rfl, ?_, ?_, rfl, Nat.le_refl 0, Nat.le_refl 0⟩
  · intro name index other gname gname' binds
    exact absurd binds (noSlots index name gname)
  · intro name gname offset
    refine iff_of_false (by rintro ⟨⟩) ?_
    rintro ⟨index, binds, _⟩
    exact noSlots index name gname binds

section Slots

variable {contents name : List UInt8} {book : Book} {index : Nat}

/-- What the slots bind after an entry was written. -/
theorem binds_overwrite
    (within : index < contents.length / physSize ∨
      contents.length = physSize * index)
    (new : PhysEnt)
    (other : Nat)
    (name : List UInt8)
    (gname : GdpName) :
    Binds (overwrite contents (physSize * index) new.bytes) other name gname ↔
      if other = index then
        new.inUse = true ∧ new.text = name ∧ new.gname = gname
      else Binds contents other name gname := by
  rw [Binds, getElem?_slots_overwrite contents new within]
  by_cases same : other = index
  · rw [if_pos same, if_pos same]
    constructor
    · rintro ⟨ent, isNew, bound⟩
      rw [Option.some.inj isNew]
      exact bound
    · intro bound
      exact ⟨new, rfl, bound⟩
  · rw [if_neg same, if_neg same, Binds]

/-- A slot that binds a name at most to what an entry is about to bind. -/
structure Fits (contents : List UInt8) (index : Nat) (name : List UInt8) :
    Prop where
  within : index < contents.length / physSize ∨
    contents.length = physSize * index
  here : ∀ other gname, Binds contents index other gname → other = name
  nowhere : ∀ other gname, Binds contents other name gname → other = index

/-- Binding a name in a slot that fits. -/
theorem Fits.unique
    (fits : Fits contents index name)
    (tracks : Tracks contents book)
    (new : PhysEnt)
    (named : new.inUse = true → new.text = name) :
    ∀ name first second gname gname',
      Binds (overwrite contents (physSize * index) new.bytes) first name gname →
      Binds (overwrite contents (physSize * index) new.bytes) second name
        gname' →
      first = second := by
  intro other first second gname gname' bindsFirst bindsSecond
  rw [binds_overwrite fits.within] at bindsFirst bindsSecond
  by_cases isFirst : first = index
  · rw [if_pos isFirst] at bindsFirst
    by_cases isSecond : second = index
    · rw [isFirst, isSecond]
    · rw [if_neg isSecond] at bindsSecond
      have same : other = name := by
        rw [← bindsFirst.2.1]
        exact named bindsFirst.1
      rw [same] at bindsSecond
      exact absurd (fits.nowhere second gname' bindsSecond) isSecond
  · rw [if_neg isFirst] at bindsFirst
    by_cases isSecond : second = index
    · rw [if_pos isSecond] at bindsSecond
      have same : other = name := by
        rw [← bindsSecond.2.1]
        exact named bindsSecond.1
      rw [same] at bindsFirst
      exact absurd (fits.nowhere first gname bindsFirst) isFirst
    · rw [if_neg isSecond] at bindsSecond
      exact tracks.unique other first second gname gname' bindsFirst bindsSecond

/-- What the book should say after an entry was written to a slot that fits. -/
theorem Fits.bound
    (fits : Fits contents index name)
    (tracks : Tracks contents book)
    (new : PhysEnt)
    (named : new.inUse = true → new.text = name)
    (other : List UInt8)
    (gname : GdpName)
    (offset : Nat) :
    Function.update book.bound name
        (if new.inUse then some (new.gname, physSize * index) else none) other =
          some (gname, offset) ↔
      ∃ slot, Binds (overwrite contents (physSize * index) new.bytes) slot other
        gname ∧ offset = physSize * slot := by
  by_cases same : other = name
  · rw [same, Function.update_self]
    constructor
    · intro isNew
      split at isNew
      · next used =>
          have pair := Prod.mk.inj (Option.some.inj isNew)
          refine ⟨index, ?_, pair.2.symm⟩
          rw [binds_overwrite fits.within, if_pos rfl]
          exact ⟨used, named used, pair.1⟩
      · cases isNew
    · rintro ⟨slot, binds, isOffset⟩
      rw [binds_overwrite fits.within] at binds
      split at binds
      · next here =>
          rw [if_pos binds.1, binds.2.2, isOffset, here]
      · next elsewhere =>
          exact absurd (fits.nowhere slot gname binds) elsewhere
  · rw [Function.update_of_ne same, tracks.bound]
    constructor
    · rintro ⟨slot, binds, isOffset⟩
      refine ⟨slot, ?_, isOffset⟩
      rw [binds_overwrite fits.within, if_neg]
      · exact binds
      · intro here
        rw [here] at binds
        exact same (fits.here other gname binds)
    · rintro ⟨slot, binds, isOffset⟩
      refine ⟨slot, ?_, isOffset⟩
      rw [binds_overwrite fits.within] at binds
      split at binds
      · exact absurd (binds.2.1.symm.trans (named binds.1)) same
      · exact binds

theorem isNamed_iff
    (clean : Clean name)
    (ent : PhysEnt) :
    ent.isNamed name = true ↔ ent.inUse = true ∧ ent.text = name := by
  rw [PhysEnt.isNamed, cstr_eq_self clean.2, Bool.and_eq_true, beq_iff_eq]

theorem text_named_clean
    (clean : Clean name)
    (gname : GdpName) :
    (PhysEnt.named name gname).text = name := by
  rw [PhysEnt.text_named, cstr_eq_self clean.2]
  exact List.take_of_length_le clean.1

/-- A name is in a directory file if a slot binds it. -/
theorem not_binds_of_absent
    {gname : GdpName}
    (clean : Clean name)
    (absent : ¬InUse contents name) :
    ¬Binds contents index name gname := by
  rintro ⟨ent, found, used, text, _⟩
  exact absent ⟨ent, List.mem_of_getElem? found,
    (isNamed_iff clean ent).mpr ⟨used, text⟩⟩

/-! ## A name that is found -/

theorem binds_found
    (clean : Clean name)
    (split : slots contents = before ++ ent :: after)
    (named : ent.isNamed name = true) :
    Binds contents before.length name ent.gname := by
  obtain ⟨used, text⟩ := (isNamed_iff clean ent).mp named
  refine ⟨ent, ?_, used, text, rfl⟩
  rw [split, List.getElem?_append_right (Nat.le_refl _), Nat.sub_self]
  rfl

theorem Tracks.fits_found
    (tracks : Tracks contents book)
    (clean : Clean name)
    (split : slots contents = before ++ ent :: after)
    (named : ent.isNamed name = true) :
    Fits contents before.length name := by
  have binds := binds_found clean split named
  refine ⟨Or.inl ?_, ?_, ?_⟩
  · rw [← length_slots, split, List.length_append, List.length_cons]
    omega
  · rintro other gname ⟨first, found, _, text, _⟩
    obtain ⟨second, found', _, text', _⟩ := binds
    cases found.symm.trans found'
    exact text.symm.trans text'
  · intro other gname bindsOther
    exact tracks.unique name other _ gname _ bindsOther binds

theorem Tracks.bound_found
    (tracks : Tracks contents book)
    (clean : Clean name)
    (split : slots contents = before ++ ent :: after)
    (named : ent.isNamed name = true) :
    book.bound name = some (ent.gname, physSize * before.length) :=
  (tracks.bound _ _ _).mpr ⟨_, binds_found clean split named, rfl⟩

/-- A name that is found is bound to another file. -/
theorem Tracks.rebind
    (tracks : Tracks contents book)
    (clean : Clean name)
    (split : slots contents = before ++ ent :: after)
    (named : ent.isNamed name = true)
    (gname : GdpName)
    (offset : Nat) :
    Tracks (overwrite contents (physSize * before.length)
        (PhysEnt.named name gname).bytes)
      (book.bind name gname offset) := by
  have fits := tracks.fits_found clean split named
  have isNew : (PhysEnt.named name gname).inUse = true →
      (PhysEnt.named name gname).text = name :=
    fun _ => text_named_clean clean gname
  have used := ((isNamed_iff clean ent).mp named).1
  rw [Book.bind, tracks.bound_found clean split named]
  refine ⟨whole_overwrite tracks.whole _ _, fits.unique tracks _ isNew,
    fits.bound tracks _ isNew, ?_, ?_, tracks.most⟩
  · have count := tracks.count
    rw [split, List.countP_append, List.countP_cons_of_pos used] at count
    rw [slots_replace split, List.countP_append, List.countP_cons_of_pos rfl]
    exact count
  · have short := tracks.short
    rw [split, List.length_append, List.length_cons] at short
    rw [slots_replace split, List.length_append, List.length_cons]
    exact short

/-- A name that is found is removed. -/
theorem Tracks.unbind
    (tracks : Tracks contents book)
    (clean : Clean name)
    (split : slots contents = before ++ ent :: after)
    (named : ent.isNamed name = true) :
    Tracks (overwrite contents (physSize * before.length) ent.unused.bytes)
      (book.unbind name) := by
  have fits := tracks.fits_found clean split named
  have isNew : ent.unused.inUse = true → ent.unused.text = name := by
    rintro ⟨⟩
  have used := ((isNamed_iff clean ent).mp named).1
  rw [Book.unbind, tracks.bound_found clean split named]
  refine ⟨whole_overwrite tracks.whole _ _, fits.unique tracks _ isNew,
    fits.bound tracks _ isNew, ?_, ?_, ?_⟩
  · have count := tracks.count
    rw [split, List.countP_append, List.countP_cons_of_pos used] at count
    rw [slots_replace split, List.countP_append,
      List.countP_cons_of_neg Bool.false_ne_true]
    dsimp only
    omega
  · have short := tracks.short
    rw [split, List.length_append, List.length_cons] at short
    rw [slots_replace split, List.length_append, List.length_cons]
    exact short
  · exact Nat.le_trans (Nat.sub_le _ _) tracks.most

/-! ## A name that is not found -/

theorem Tracks.bound_absent
    (tracks : Tracks contents book)
    (clean : Clean name)
    (absent : ¬InUse contents name) :
    book.bound name = none := by
  cases bound : book.bound name with
  | none => rfl
  | some pair =>
      obtain ⟨gname, offset⟩ := pair
      obtain ⟨index, binds, _⟩ := (tracks.bound name gname offset).mp bound
      exact absurd binds (not_binds_of_absent clean absent)

/-- The first free slot is not in use. -/
theorem free_slot
    (table : List PhysEnt)
    (found : table[table.findIdx PhysEnt.isFree]? = some ent) :
    ent.inUse = false := by
  obtain ⟨below, isEnt⟩ := List.getElem?_eq_some_iff.mp found
  have free := List.findIdx_getElem (w := below)
  rw [isEnt, PhysEnt.isFree, Bool.not_eq_true'] at free
  exact free

theorem Tracks.fits_absent
    (tracks : Tracks contents book)
    (clean : Clean name)
    (absent : ¬InUse contents name) :
    Fits contents ((slots contents).findIdx PhysEnt.isFree) name := by
  have most : (slots contents).findIdx PhysEnt.isFree ≤
      (slots contents).length := List.findIdx_le_length
  refine ⟨?_, ?_, ?_⟩
  · have whole := tracks.whole
    rw [length_slots] at most
    rw [physSize] at whole most ⊢
    omega
  · rintro other gname ⟨ent, found, used, _⟩
    rw [free_slot (slots contents) found] at used
    cases used
  · intro other gname binds
    exact absurd binds (not_binds_of_absent clean absent)

/-- A new entry in the first free slot. -/
theorem countP_insert
    (table : List PhysEnt)
    (new : PhysEnt)
    (used : new.inUse = true) :
    (table.take (table.findIdx PhysEnt.isFree) ++
        new :: table.drop (table.findIdx PhysEnt.isFree + 1)).countP
        PhysEnt.inUse =
      table.countP PhysEnt.inUse + 1 := by
  induction table with
  | nil => exact List.countP_cons_of_pos used
  | cons first rest inductionHypothesis =>
      rw [List.findIdx_cons]
      cases full : first.inUse with
      | false =>
          rw [PhysEnt.isFree, full, Bool.not_false, cond_true]
          change (new :: rest).countP PhysEnt.inUse = _
          rw [List.countP_cons_of_pos used, List.countP_cons_of_neg]
          rw [full]
          exact Bool.false_ne_true
      | true =>
          rw [PhysEnt.isFree, full, Bool.not_true, cond_false,
            List.countP_cons_of_pos full, List.take_succ_cons,
            List.drop_succ_cons, List.cons_append,
            List.countP_cons_of_pos full, inductionHypothesis]

/-- The table grows only if all of its slots are in use. -/
theorem length_insert
    (table : List PhysEnt)
    (new : PhysEnt) :
    (table.take (table.findIdx PhysEnt.isFree) ++
        new :: table.drop (table.findIdx PhysEnt.isFree + 1)).length ≤
      max table.length (table.countP PhysEnt.inUse + 1) := by
  have most : table.findIdx PhysEnt.isFree ≤ table.length :=
    List.findIdx_le_length
  rw [List.length_append, List.length_take, List.length_cons, List.length_drop]
  by_cases hole : table.findIdx PhysEnt.isFree < table.length
  · omega
  · have full : table.countP PhysEnt.inUse = table.length := by
      refine List.countP_eq_length.mpr fun ent member => ?_
      have noHole := List.findIdx_eq_length.mp
        (Nat.le_antisymm most (Nat.le_of_not_lt hole)) ent member
      rw [PhysEnt.isFree] at noHole
      exact Bool.not_eq_false' .. ▸ noHole
    omega

/-- A name that is not found is bound in the first free slot. -/
theorem Tracks.bind
    (tracks : Tracks contents book)
    (clean : Clean name)
    (absent : ¬InUse contents name)
    (gname : GdpName) :
    Tracks (overwrite contents
        (physSize * (slots contents).findIdx PhysEnt.isFree)
        (PhysEnt.named name gname).bytes)
      (book.bind name gname
        (physSize * (slots contents).findIdx PhysEnt.isFree)) := by
  have fits := tracks.fits_absent clean absent
  have isNew : (PhysEnt.named name gname).inUse = true →
      (PhysEnt.named name gname).text = name :=
    fun _ => text_named_clean clean gname
  have count := tracks.count
  rw [Book.bind, tracks.bound_absent clean absent]
  refine ⟨whole_overwrite tracks.whole _ _, fits.unique tracks _ isNew,
    fits.bound tracks _ isNew, ?_, ?_, Nat.le_max_right _ _⟩
  · rw [slots_insert tracks.whole, countP_insert _ _ rfl, count]
  · have grown := length_insert (slots contents) (PhysEnt.named name gname)
    have short := tracks.short
    rw [slots_insert tracks.whole]
    rw [count] at grown
    dsimp only
    omega

end Slots

/-! ## Runs -/

section Runs

variable {env : DirEnv} {fs : Fs} {fh : Nat} {dir : GdpName} {node : Node}
  {book : Book}

/-- The handle is open on a directory file that keeps to the book. -/
def Session.kept (session : Session) (fh : Nat) (dir : GdpName) : Prop :=
  ∃ node, OpenOn session.fs fh dir node ∧ Tracks node.contents session.book

theorem openOn_setNode
    {next : Fs}
    {after : Node}
    (opened : OpenOn fs fh dir node)
    (store : next.store = fs.store.setNode dir after) :
    OpenOn next fh dir after := by
  refine ⟨?_, ?_⟩
  · rw [store]
    exact opened.handle
  · rw [store]
    exact Function.update_self _ _ _

theorem ensures_add
    (serves : Serves env)
    (opened : OpenOn fs fh dir node)
    (tracks : Tracks node.contents book)
    (clean : Clean name)
    (gname : GdpName) :
    Ensures ((TableOp.add name gname).run env fh)
      (fun result next => Session.kept
        ⟨next, book.after (.add name gname) result.1 result.2⟩ fh dir) fs := by
  rw [TableOp.run]
  refine (ensures_findInsertOffset serves.reads opened name).bind ?_
  rintro _ between ⟨rfl, same, _⟩
  have stays := opened.congr same
  rcases findIn_cases node.contents name with
    ⟨before, ent, after, split, named, _, found⟩ | ⟨_, torn, _⟩ |
    ⟨absent, _, free⟩
  · rw [found]
    dsimp only
    rw [ensures_run_bind (stays.run_addAtOffset serves.writes _ _ _)]
    refine ensures_pure.mpr ⟨_, openOn_setNode stays rfl, ?_⟩
    exact tracks.rebind clean split named gname _
  · exact absurd tracks.whole torn
  · rw [free]
    dsimp only
    rw [ensures_run_bind (stays.run_addAtOffset serves.writes _ _ _)]
    refine ensures_pure.mpr ⟨_, openOn_setNode stays rfl, ?_⟩
    exact tracks.bind clean absent gname

theorem ensures_remove
    (serves : Serves env)
    (opened : OpenOn fs fh dir node)
    (tracks : Tracks node.contents book)
    (clean : Clean name)
    (type : FileType) :
    Ensures ((TableOp.remove name type).run env fh)
      (fun result next => Session.kept
        ⟨next, book.after (.remove name type) result.1 result.2⟩ fh dir)
      fs := by
  rw [TableOp.run]
  rcases findIn_cases node.contents name with
    ⟨before, ent, after, split, named, _, found⟩ | ⟨_, torn, _⟩ |
    ⟨absent, _, free⟩
  · refine (ensures_gdpfsDirRemove_exists serves.reads serves.writes opened
      found).bind ?_
    rintro stat next ⟨_, store⟩
    refine ensures_pure.mpr ?_
    dsimp only [Book.after]
    cases passed : stat.isOk with
    | true =>
        rw [passed, if_pos rfl] at store
        rw [if_pos rfl]
        exact ⟨_, openOn_setNode opened store,
          tracks.unbind clean split named⟩
    | false =>
        rw [passed, if_neg Bool.false_ne_true] at store
        rw [if_neg Bool.false_ne_true]
        exact ⟨node, opened.congr store, tracks⟩
  · exact absurd tracks.whole torn
  · refine (ensures_gdpfsDirRemove_free serves.reads opened free).bind ?_
    rintro _ next ⟨rfl, store⟩
    refine ensures_pure.mpr ⟨node, opened.congr store, ?_⟩
    have unbound : book.unbind name = book := by
      rw [Book.unbind, tracks.bound_absent clean absent]
    change Tracks node.contents (book.unbind name)
    rw [unbound]
    exact tracks

/-- One operation on a name that fits into an entry. -/
theorem ensures_step
    {session : Session}
    (serves : Serves env)
    (kept : session.kept fh dir)
    (op : TableOp)
    (clean : Clean op.name) :
    Ensures (op.step env fh) (fun _ next => next.kept fh dir) session := by
  obtain ⟨node, opened, tracks⟩ := kept
  have runs : Ensures (op.run env fh) (fun result next => Session.kept
      ⟨next, session.book.after op result.1 result.2⟩ fh dir) session.fs := by
    cases op with
    | add name gname => exact ensures_add serves opened tracks clean gname
    | remove name type => exact ensures_remove serves opened tracks clean type
  obtain ⟨⟨stat, offset⟩, next, run, done⟩ := runs
  rw [TableOp.step, ensures_bind, ensures_get, run]
  dsimp only
  rw [ensures_bind, ensures_set, ensures_pure]
  exact done

end Runs

/-- What a search should return for a name: the entry at the offset of the book,
or the first free slot. -/
def Located (contents : List UInt8) (bound : Option (GdpName × Nat))
    (found : Found) : Prop :=
  match bound with
  | some (gname, offset) =>
      ∃ ent, found = .fileExists offset ent ∧ ent.gname = gname
  | none =>
      found = .free (physSize * (slots contents).findIdx PhysEnt.isFree)

/-- In every run on a directory file that starts empty, the file is one of whole
entries, no two entries in use have the same name, a search finds a name exactly
if it is bound, with the file that it was last bound to and at the offset where
it was added, and otherwise the first free slot; and there are never more slots
than there were names at once. -/
theorem directory_keeps_book
    (serves : Serves env)
    (opened : OpenOn fs fh dir node)
    (empty : node.contents = [])
    (reached : Reached (TableOp.step env fh) (fun op _ => Clean op.name)
      ⟨fs, Book.empty⟩ session) :
    ∃ after, OpenOn session.fs fh dir after ∧
      after.contents.length % physSize = 0 ∧
      (∀ name index other gname gname',
        Binds after.contents index name gname →
        Binds after.contents other name gname' → index = other) ∧
      (∀ name, Clean name → Ensures (findInsertOffset env fh name)
        (fun found next => next.store = session.fs.store ∧
          Located after.contents (session.book.bound name) found)
        session.fs) ∧
      (slots after.contents).length ≤ session.book.peak ∧
      ∀ op : TableOp, Clean op.name →
        Ensures (op.step env fh) (fun _ _ => True) session := by
  have kept : session.kept fh dir := by
    refine Reached.invariant (fun session => session.kept fh dir) ?_ ?_ reached
    · refine ⟨node, opened, ?_⟩
      rw [empty]
      exact tracks_empty
    · intro op session clean kept
      exact (ensures_step serves kept op clean).allows
  have returns : ∀ op : TableOp, Clean op.name →
      Ensures (op.step env fh) (fun _ _ => True) session :=
    fun op clean => (ensures_step serves kept op clean).mono
      fun _ _ _ => trivial
  obtain ⟨after, stays, tracks⟩ := kept
  refine ⟨after, stays, tracks.whole, tracks.unique, ?_, tracks.short, returns⟩
  intro name clean
  refine (ensures_findInsertOffset serves.reads stays name).mono ?_
  rintro _ next ⟨rfl, store, _⟩
  refine ⟨store, ?_⟩
  rcases findIn_cases after.contents name with
    ⟨before, ent, rest, split, named, _, found⟩ | ⟨_, torn, _⟩ |
    ⟨absent, _, free⟩
  · rw [tracks.bound_found clean split named]
    exact ⟨ent, found, rfl⟩
  · exact absurd tracks.whole torn
  · rw [tracks.bound_absent clean absent]
    exact free

/-- Two names are added, the first is removed and a third one is added. -/
def reusedSlot : List TableOp :=
  [.add [97] (Vector.replicate 32 1), .add [98] (Vector.replicate 32 2),
    .remove [97] .unknown, .add [99] (Vector.replicate 32 3)]

theorem directory_keeps_book_reused :
    ∃ session, Reached (TableOp.step DirEnv.calm 0)
        (fun op _ => Clean op.name) ⟨oneDirectory [], Book.empty⟩ session ∧
      session.book.bound [99] = some (Vector.replicate 32 3, 0) ∧
      ∃ after, OpenOn session.fs 0 DirEnv.calm.rootLogGname after ∧
        after.contents.length % physSize = 0 ∧
        (slots after.contents).length ≤ session.book.peak := by
  have replays : (replay (TableOp.step DirEnv.calm 0)
      (fun op _ => decide (Clean op.name)) reusedSlot
      ⟨oneDirectory [], Book.empty⟩).any (fun session =>
        session.book.bound [99] == some (Vector.replicate 32 3, 0)) = true := by
    decide +kernel
  obtain ⟨session, replayed, bound⟩ := (Option.any_eq_true _ _).mp replays
  have reached : Reached (TableOp.step DirEnv.calm 0)
      (fun op _ => Clean op.name) ⟨oneDirectory [], Book.empty⟩ session :=
    reached_of_replay (fun _ _ clean => of_decide_eq_true clean) replayed
  have opened : OpenOn (oneDirectory []) 0 DirEnv.calm.rootLogGname
      ⟨.dir, rootDefaultPerm, []⟩ := ⟨rfl, rfl⟩
  obtain ⟨after, stays, whole, _, _, short, _⟩ :=
    directory_keeps_book serves_calm opened rfl reached
  exact ⟨session, reached, beq_iff_eq.mp bound, after, stays, whole, short⟩

end Dir
end Gdpfs
