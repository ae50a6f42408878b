import Gdpfs.Dir.Book
import Gdpfs.Dir.Walk
import Gdpfs.Store.NameTree

/-!
# The tree of names

The directories of a store form a tree: a name in a directory leads to a file,
and every file but the root is in one directory under one name.
-/

namespace Gdpfs
namespace Dir

open Log File Effect NameTree

/-- The file of a name in a directory. -/
def look (store : Store) (dir : GdpName) (name : Name) : Option GdpName :=
  if hasType store dir .dir then entryOf store dir name.bytes else none

/-- The type of a file. -/
def kindOf (store : Store) (gname : GdpName) : FileType :=
  ((store.nodes gname).map Node.fileType).getD .unknown

/-- What the paths of a file system lead to: a log and the type of its file. -/
def treeOf (store : Store) (root : GdpName) (path : List Name) :
    Option (GdpName × FileType) :=
  (resolve (look store) root path).map fun gname => (gname, kindOf store gname)

theorem Name.clean (name : Name) : Clean name.bytes :=
  ⟨name.short, name.noNul⟩

theorem Name.ext_bytes
    {name other : Name}
    (same : name.bytes = other.bytes) :
    name = other := by
  cases name
  cases other
  cases same
  rfl

/-! ## Directory files -/

/-- A directory file keeps to a book of names. -/
structure Table (contents : List UInt8) (book : Book) : Prop where
  tracks : Tracks contents book
  named : ∀ text, book.bound text ≠ none → ∃ name : Name, name.bytes = text

theorem table_empty : Table [] Book.empty :=
  ⟨tracks_empty, fun _ bound => absurd rfl bound⟩

section Table

variable {contents : List UInt8} {book : Book}

theorem Table.file
    (table : Table contents book)
    (name : Name) :
    (findIn contents name.bytes).file =
      (book.bound name.bytes).map Prod.fst := by
  rcases findIn_cases contents name.bytes with
    ⟨before, ent, after, split, named, _, found⟩ | ⟨_, torn, _⟩ |
    ⟨absent, _, free⟩
  · rw [found, table.tracks.bound_found name.clean split named]
    rfl
  · exact absurd table.tracks.whole torn
  · rw [free, table.tracks.bound_absent name.clean absent]
    rfl

/-- A name that is bound. -/
theorem bound_bind
    (book : Book)
    (name : List UInt8)
    (gname : GdpName)
    (offset : Nat) :
    ∃ place, (book.bind name gname offset).bound =
      Function.update book.bound name (some (gname, place)) := by
  rw [Book.bind]
  cases book.bound name with
  | none => exact ⟨offset, rfl⟩
  | some pair => exact ⟨pair.2, rfl⟩

theorem bound_unbind
    (book : Book)
    (name : List UInt8) :
    (book.unbind name).bound = Function.update book.bound name none := by
  rw [Book.unbind]
  cases bound : book.bound name with
  | none =>
      dsimp only
      rw [← bound, Function.update_eq_self]
  | some pair => rfl

/-- Names stay valid if a valid one is changed. -/
theorem named_update
    {bound : List UInt8 → Option (GdpName × Nat)}
    (named : ∀ text, bound text ≠ none → ∃ name : Name, name.bytes = text)
    (name : Name)
    (value : Option (GdpName × Nat))
    (text : List UInt8)
    (isBound : Function.update bound name.bytes value text ≠ none) :
    ∃ name : Name, name.bytes = text := by
  by_cases same : text = name.bytes
  · exact ⟨name, same.symm⟩
  · rw [Function.update_of_ne same] at isBound
    exact named text isBound

/-- The offset that `_find_insert_offset` returns. -/
def Found.offset : Found → Option Nat
  | .fileExists offset _ => some offset
  | .free offset => some offset
  | .corrupt => none

/-- An entry is written where a search for its name ended. -/
theorem Table.add
    (table : Table contents book)
    (name : Name)
    (gname : GdpName)
    (found : (findIn contents name.bytes).offset = some offset) :
    ∃ after place,
      Table (overwrite contents offset (PhysEnt.named name.bytes gname).bytes)
        after ∧
      after.bound =
        Function.update book.bound name.bytes (some (gname, place)) := by
  rcases findIn_cases contents name.bytes with
    ⟨before, ent, later, split, named, _, isFound⟩ | ⟨_, torn, _⟩ |
    ⟨absent, _, free⟩
  · rw [isFound] at found
    cases found
    obtain ⟨place, bound⟩ := bound_bind book name.bytes gname 0
    refine ⟨_, place, ⟨table.tracks.rebind name.clean split named gname 0, ?_⟩,
      bound⟩
    rw [bound]
    exact named_update table.named name _
  · exact absurd table.tracks.whole torn
  · rw [free] at found
    cases found
    obtain ⟨place, bound⟩ := bound_bind book name.bytes gname
      (physSize * (slots contents).findIdx PhysEnt.isFree)
    refine ⟨_, place, ⟨table.tracks.bind name.clean absent gname, ?_⟩, bound⟩
    rw [bound]
    exact named_update table.named name _

/-- An entry that was found is marked unused. -/
theorem Table.remove
    (table : Table contents book)
    (name : Name)
    (found : findIn contents name.bytes = .fileExists offset ent) :
    ∃ after, Table (overwrite contents offset ent.unused.bytes) after ∧
      after.bound = Function.update book.bound name.bytes none := by
  rcases findIn_cases contents name.bytes with
    ⟨before, other, later, split, named, _, isFound⟩ | ⟨_, torn, _⟩ |
    ⟨_, _, free⟩
  · rw [isFound] at found
    cases found
    have bound := bound_unbind book name.bytes
    refine ⟨_, ⟨table.tracks.unbind name.clean split named, ?_⟩, bound⟩
    rw [bound]
    exact named_update table.named name _
  · exact absurd table.tracks.whole torn
  · rw [free] at found
    cases found

theorem Table.findIn_ne_corrupt
    (table : Table contents book)
    (name : List UInt8) :
    findIn contents name ≠ .corrupt := by
  intro corrupt
  rcases findIn_cases contents name with
    ⟨_, _, _, _, _, _, found⟩ | ⟨_, torn, _⟩ | ⟨_, _, free⟩
  · rw [corrupt] at found
    cases found
  · exact torn table.tracks.whole
  · rw [corrupt] at free
    cases free

/-- A name of the root is no name of a file. -/
theorem Table.slash_free
    (table : Table contents book) :
    ∃ offset, findIn contents [slash] = .free offset := by
  have clean : Clean [slash] := by decide
  rcases findIn_cases contents [slash] with
    ⟨before, ent, after, split, named, _, _⟩ | ⟨_, torn, _⟩ | ⟨_, _, free⟩
  · have bound := table.tracks.bound_found clean split named
    have isBound : book.bound [slash] ≠ none := by
      rw [bound]
      exact Option.some_ne_none _
    obtain ⟨name, isName⟩ := table.named [slash] isBound
    refine absurd ?_ name.noSlash
    rw [isName]
    exact List.mem_cons_self
  · exact absurd table.tracks.whole torn
  · exact ⟨_, free⟩

/-- A directory file without entries in use has no names. -/
theorem file_of_empty
    (empty : firstIn contents = .eof)
    (name : List UInt8) :
    (findIn contents name).file = none := by
  obtain ⟨_, unused⟩ := firstIn_eof.mp empty
  rcases findIn_cases contents name with
    ⟨before, ent, after, split, named, _, _⟩ | ⟨_, _, found⟩ | ⟨_, _, found⟩
  · have member : ent ∈ slots contents := by
      rw [split]
      exact List.mem_append_right _ List.mem_cons_self
    rw [PhysEnt.isNamed, unused ent member] at named
    cases named
  · rw [found]
    rfl
  · rw [found]
    rfl

end Table

/-! ## Stores -/

/-- The directories of a store are tables, and the root is one. -/
structure Sane (store : Store) (root : GdpName) : Prop where
  top : hasType store root .dir = true
  tables : ∀ dir node, store.nodes dir = some node → node.fileType = .dir →
    ∃ book, Table node.contents book
  kinds : ∀ gname node, store.nodes gname = some node →
    node.fileType = .regular ∨ node.fileType = .dir

/-- The directories of a store form a tree of files that exist. -/
structure Sound (store : Store) (root : GdpName) : Prop extends
    Sane store root where
  stored : ∀ dir name gname, look store dir name = some gname →
    store.nodes gname ≠ none
  forest : Forest (look store) root

section Stores

variable {store next : Store} {root dir gname : GdpName} {node : Node}

theorem hasType_of_nodes
    (same : next.nodes = store.nodes)
    (gname : GdpName)
    (type : FileType) :
    hasType next gname type = hasType store gname type := by
  rw [hasType, hasType, same]

theorem look_of_nodes
    (same : next.nodes = store.nodes) :
    look next = look store := by
  funext dir name
  rw [look, look, hasType_of_nodes same, entryOf, entryOf, same]

theorem kindOf_of_nodes
    (same : next.nodes = store.nodes) :
    kindOf next = kindOf store := by
  funext gname
  rw [kindOf, kindOf, same]

theorem treeOf_of_nodes
    (same : next.nodes = store.nodes) :
    treeOf next root = treeOf store root := by
  funext path
  rw [treeOf, treeOf, look_of_nodes same, kindOf_of_nodes same]

theorem Sane.of_nodes
    (sane : Sane store root)
    (same : next.nodes = store.nodes) :
    Sane next root := by
  refine ⟨?_, ?_, ?_⟩
  · rw [hasType_of_nodes same]
    exact sane.top
  · rw [same]
    exact sane.tables
  · rw [same]
    exact sane.kinds

theorem Sound.of_nodes
    (sound : Sound store root)
    (same : next.nodes = store.nodes) :
    Sound next root := by
  refine ⟨sound.toSane.of_nodes same, ?_, ?_⟩
  · rw [look_of_nodes same, same]
    exact sound.stored
  · rw [look_of_nodes same]
    exact sound.forest

/-- A directory is a directory file. -/
theorem hasType_dir
    (isDir : hasType store dir .dir = true) :
    ∃ node, store.nodes dir = some node ∧ node.fileType = .dir := by
  obtain ⟨node, stored⟩ := stored_of_hasType isDir
  rw [hasType, stored] at isDir
  exact ⟨node, stored, of_decide_eq_true isDir⟩

theorem hasType_of_stored
    (stored : store.nodes gname = some node)
    (type : FileType) :
    hasType store gname type =
      (decide (type = .unknown) || decide (node.fileType = type)) := by
  rw [hasType, stored]

theorem look_of_dir
    (stored : store.nodes dir = some node)
    (isDir : node.fileType = .dir)
    (name : Name) :
    look store dir name = (findIn node.contents name.bytes).file := by
  rw [look, hasType_of_stored stored, isDir, entryOf_stored stored]
  rfl

theorem look_of_not_dir
    (notDir : hasType store dir .dir = false)
    (name : Name) :
    look store dir name = none := by
  rw [look, notDir, if_neg Bool.false_ne_true]

theorem kindOf_stored
    (stored : store.nodes gname = some node) :
    kindOf store gname = node.fileType := by
  rw [kindOf, stored]
  rfl

/-! ## Walks and resolution -/

/-- A walk ends where the names resolve to, if that has the type that is asked
for. -/
theorem walkTo_eq_resolve
    (suits : type = .unknown ∨ type = .dir)
    (isDir : hasType store dir .dir = true)
    (path : List Name) :
    walkTo store type dir (path.map Name.bytes) =
      (resolve (look store) dir path).filter
        fun gname => hasType store gname type := by
  induction path generalizing dir with
  | nil =>
      have typed : hasType store dir type = true := by
        obtain ⟨node, stored, fileType⟩ := hasType_dir isDir
        rw [hasType_of_stored stored, fileType]
        rcases suits with any | isDir
        · rw [any]
          rfl
        · rw [isDir]
          rfl
      rw [List.map_nil, walkTo, resolve, Option.filter_some, typed, if_pos rfl]
  | cons name rest inductionHypothesis =>
      have entry : look store dir name = entryOf store dir name.bytes := by
        rw [look, isDir, if_pos rfl]
      rw [List.map_cons, resolve, entry]
      cases found : entryOf store dir name.bytes with
      | none => exact walkTo_cons_none found
      | some gname =>
          rw [walkTo_cons found, Option.bind_some]
          cases rest with
          | nil =>
              rw [resolve, Option.filter_some]
              rfl
          | cons next more =>
              change (if hasType store gname .dir = true then _ else _) = _
              cases below : hasType store gname .dir with
              | true => exact inductionHypothesis below
              | false =>
                  rw [resolve, look_of_not_dir below, Option.bind_none]
                  rfl

theorem Sound.stored_of_resolve
    (sound : Sound store root)
    (leads : resolve (look store) root path = some gname) :
    ∃ node, store.nodes gname = some node := by
  have exist : store.nodes gname ≠ none := by
    cases path using List.reverseRecOn with
    | nil =>
        cases Option.some.inj leads
        obtain ⟨node, stored⟩ := stored_of_hasType sound.top
        rw [stored]
        exact Option.some_ne_none node
    | append_singleton path name =>
        obtain ⟨parent, _, child⟩ := resolve_concat_some leads
        exact sound.stored parent name gname child
  exact Option.ne_none_iff_exists'.mp exist

theorem Sound.walkTo_unknown
    (sound : Sound store root)
    (path : List Name) :
    walkTo store .unknown root (path.map Name.bytes) =
      resolve (look store) root path := by
  rw [walkTo_eq_resolve (Or.inl rfl) sound.top]
  cases leads : resolve (look store) root path with
  | none => rfl
  | some gname =>
      obtain ⟨node, stored⟩ := sound.stored_of_resolve leads
      rw [Option.filter_some, hasType_of_stored stored]
      rfl

end Stores

/-! ## Changes of a store -/

/-- The contents of a directory file are replaced. -/
structure Rewrites (store next : Store) (dir : GdpName) (node : Node)
    (contents : List UInt8) : Prop where
  stored : store.nodes dir = some node
  isDir : node.fileType = .dir
  nodes : next.nodes =
    Function.update store.nodes dir (some (node.withContents contents))

section Changes

variable {store next : Store} {root dir gname : GdpName} {node : Node}
  {contents : List UInt8} {path : List Name} {name : Name}

theorem Rewrites.stored_next
    (rewrites : Rewrites store next dir node contents) :
    next.nodes dir = some (node.withContents contents) := by
  rw [rewrites.nodes, Function.update_self]

theorem Rewrites.nodes_of_ne
    (rewrites : Rewrites store next dir node contents)
    (differ : gname ≠ dir) :
    next.nodes gname = store.nodes gname := by
  rw [rewrites.nodes, Function.update_of_ne differ]

theorem Rewrites.hasType
    (rewrites : Rewrites store next dir node contents)
    (gname : GdpName)
    (type : FileType) :
    Dir.hasType next gname type = Dir.hasType store gname type := by
  by_cases same : gname = dir
  · rw [same, hasType_of_stored rewrites.stored,
      hasType_of_stored rewrites.stored_next]
    rfl
  · rw [Dir.hasType, Dir.hasType, rewrites.nodes_of_ne same]

theorem Rewrites.kindOf
    (rewrites : Rewrites store next dir node contents) :
    kindOf next = kindOf store := by
  funext gname
  by_cases same : gname = dir
  · rw [same, kindOf_stored rewrites.stored, kindOf_stored rewrites.stored_next]
    rfl
  · rw [Dir.kindOf, Dir.kindOf, rewrites.nodes_of_ne same]

/-- One name of the directory changes. -/
theorem Rewrites.look
    {value : Option (GdpName × Nat)}
    (rewrites : Rewrites store next dir node contents)
    (before : Table node.contents book)
    (after : Table contents book')
    (bound : book'.bound = Function.update book.bound name.bytes value) :
    look next = setEntry (look store) dir name (value.map Prod.fst) := by
  funext other label
  rw [setEntry]
  by_cases same : other = dir
  · rw [same, look_of_dir rewrites.stored_next rewrites.isDir]
    change (findIn contents label.bytes).file = _
    rw [after.file, bound]
    by_cases named : label = name
    · rw [if_pos ⟨rfl, named⟩, named, Function.update_self]
    · have differ : label.bytes ≠ name.bytes :=
        fun sameBytes => named (Name.ext_bytes sameBytes)
      rw [if_neg fun both => named both.2, Function.update_of_ne differ,
        look_of_dir rewrites.stored rewrites.isDir, before.file]
  · rw [if_neg fun both => same both.1, Dir.look, Dir.look, rewrites.hasType,
      entryOf, entryOf, rewrites.nodes_of_ne same]

theorem Rewrites.sane
    (rewrites : Rewrites store next dir node contents)
    (sane : Sane store root)
    (after : Table contents book') :
    Sane next root := by
  refine ⟨?_, ?_, ?_⟩
  · rw [rewrites.hasType]
    exact sane.top
  · intro other file stored isDir
    by_cases same : other = dir
    · rw [same, rewrites.stored_next] at stored
      cases stored
      exact ⟨book', after⟩
    · rw [rewrites.nodes_of_ne same] at stored
      exact sane.tables other file stored isDir
  · intro other file stored
    by_cases same : other = dir
    · rw [same, rewrites.stored_next] at stored
      cases stored
      exact Or.inr rewrites.isDir
    · rw [rewrites.nodes_of_ne same] at stored
      exact sane.kinds other file stored

theorem Rewrites.exists_iff
    (rewrites : Rewrites store next dir node contents)
    (gname : GdpName) :
    next.nodes gname ≠ none ↔ store.nodes gname ≠ none := by
  by_cases same : gname = dir
  · rw [same, rewrites.stored_next, rewrites.stored]
    exact iff_of_true (Option.some_ne_none _) (Option.some_ne_none _)
  · rw [rewrites.nodes_of_ne same]

/-- A new file has no names. -/
theorem Sound.newFile
    (sound : Sound store root)
    (new : store.nodes gname = none)
    (kind : type = .regular ∨ type = .dir)
    (nodes : next.nodes =
      Function.update store.nodes gname (some ⟨type, perm, []⟩)) :
    Sound next root ∧ Dir.look next = Dir.look store := by
  have stored : next.nodes gname = some ⟨type, perm, []⟩ := by
    rw [nodes, Function.update_self]
  have others : ∀ other, other ≠ gname → next.nodes other = store.nodes other :=
    fun other differ => by rw [nodes, Function.update_of_ne differ]
  have looks : Dir.look next = Dir.look store := by
    funext other label
    by_cases same : other = gname
    · have missing : Dir.hasType store gname .dir = false := by
        rw [Dir.hasType, new]
      have unnamed : (findIn [] label.bytes).file = none :=
        file_of_empty rfl label.bytes
      rw [same, look_of_not_dir missing, Dir.look, entryOf_stored stored,
        unnamed]
      exact ite_self none
    · rw [Dir.look, Dir.look, Dir.hasType, Dir.hasType, entryOf, entryOf,
        others other same]
  have differs : ∀ other, store.nodes other ≠ none → other ≠ gname :=
    fun other exist same => exist (same ▸ new)
  have rootStored : store.nodes root ≠ none := by
    obtain ⟨file, isStored⟩ := stored_of_hasType sound.top
    rw [isStored]
    exact Option.some_ne_none file
  refine ⟨⟨⟨?_, ?_, ?_⟩, ?_, ?_⟩, looks⟩
  · have top := sound.top
    rw [Dir.hasType] at top ⊢
    rw [others root (differs root rootStored)]
    exact top
  · intro other file isStored isDir
    by_cases same : other = gname
    · rw [same, stored] at isStored
      cases isStored
      exact ⟨Book.empty, table_empty⟩
    · rw [others other same] at isStored
      exact sound.tables other file isStored isDir
  · intro other file isStored
    by_cases same : other = gname
    · rw [same, stored] at isStored
      cases isStored
      exact kind
    · rw [others other same] at isStored
      exact sound.kinds other file isStored
  · intro parent label child found
    rw [looks] at found
    have exist := sound.stored parent label child found
    rw [others child (differs child exist)]
    exact exist
  · rw [looks]
    exact sound.forest

/-- The tree after one entry was changed. -/
theorem treeOf_setEntry
    {child : Option GdpName}
    (sound : Sound store root)
    (leads : resolve (Dir.look store) root path = some dir)
    (looks : Dir.look next = setEntry (Dir.look store) dir name child)
    (kinds : ∀ other, store.nodes other ≠ none →
      Dir.kindOf next other = Dir.kindOf store other)
    (before : ∀ old, Dir.look store dir name = some old →
      ∀ other, Dir.look store old other = none)
    (after : ∀ new, child = some new → new ≠ dir ∧
      ∀ other, Dir.look store new other = none) :
    treeOf next root = Function.update (treeOf store root) (path ++ [name])
      (child.map fun gname => (gname, Dir.kindOf next gname)) := by
  funext other
  rw [treeOf, looks, resolve_setEntry_leaf sound.forest leads before after,
    Function.update_apply]
  split
  · rfl
  · rw [treeOf]
    cases resolved : resolve (Dir.look store) root other with
    | none => rfl
    | some gname =>
        obtain ⟨file, stored⟩ := sound.stored_of_resolve resolved
        have exist : store.nodes gname ≠ none := by
          rw [stored]
          exact Option.some_ne_none file
        rw [Option.map_some, Option.map_some, kinds gname exist]

/-- A file is created. -/
theorem Sound.create
    (sound : Sound store root)
    (leads : resolve (Dir.look store) root path = some dir)
    (stored : store.nodes dir = some node)
    (isDir : node.fileType = .dir)
    (free : findIn node.contents name.bytes = .free offset)
    (new : store.nodes gname = none)
    (kind : type = .regular ∨ type = .dir)
    (nodes : next.nodes = Function.update
      (Function.update store.nodes gname (some ⟨type, perm, []⟩)) dir
      (some (node.withContents (overwrite node.contents offset
        (PhysEnt.named name.bytes gname).bytes)))) :
    Sound next root ∧
      treeOf next root = Function.update (treeOf store root) (path ++ [name])
        (some (gname, type)) := by
  have differ : dir ≠ gname := by
    intro same
    rw [same, new] at stored
    cases stored
  obtain ⟨book, table⟩ := sound.tables dir node stored isDir
  have found : (findIn node.contents name.bytes).offset = some offset := by
    rw [free]
    rfl
  obtain ⟨book', place, table', bound⟩ := table.add name gname found
  obtain ⟨middle, looks⟩ := sound.newFile new kind
    (rfl : (store.setNode gname ⟨type, perm, []⟩).nodes = _)
  have rewrites : Rewrites (store.setNode gname ⟨type, perm, []⟩) next dir node
      (overwrite node.contents offset
        (PhysEnt.named name.bytes gname).bytes) :=
    ⟨(Function.update_of_ne differ _ _).trans stored, isDir, nodes⟩
  have looks' := rewrites.look table table' bound
  rw [looks] at looks'
  have unnamed : Dir.look store dir name = none := by
    rw [look_of_dir stored isDir, free]
    rfl
  have childless : ∀ other, Dir.look store gname other = none := by
    refine look_of_not_dir ?_
    rw [Dir.hasType, new]
  have nowhere : ∀ parent other, Dir.look store parent other ≠ some gname :=
    fun parent other child => sound.stored parent other gname child new
  have notRoot : gname ≠ root := by
    intro same
    obtain ⟨file, isStored⟩ := stored_of_hasType sound.top
    rw [← same, new] at isStored
    cases isStored
  refine ⟨⟨rewrites.sane middle.toSane table', ?_, ?_⟩, ?_⟩
  · intro parent label child isChild
    rw [rewrites.exists_iff]
    rw [looks', setEntry] at isChild
    split at isChild
    · cases isChild
      exact ne_of_eq_of_ne (Function.update_self _ _ _) (Option.some_ne_none _)
    · rw [← looks] at isChild
      exact middle.stored parent label child isChild
  · rw [looks']
    exact sound.forest.setEntry_some notRoot
      fun parent other child => absurd child (nowhere parent other)
  · have isStored : (store.setNode gname ⟨type, perm, []⟩).nodes gname =
        some ⟨type, perm, []⟩ := Function.update_self _ _ _
    have kindOfNew : Dir.kindOf next gname = type := by
      rw [rewrites.kindOf, kindOf_stored isStored]
    rw [treeOf_setEntry sound leads looks' ?_ ?_ ?_]
    · rw [Option.map_some, Option.map_some, kindOfNew]
    · intro other exist
      have apart : other ≠ gname := fun same => exist (same ▸ new)
      rw [rewrites.kindOf, Dir.kindOf, Dir.kindOf]
      change ((Function.update store.nodes gname _ other).map _).getD _ = _
      rw [Function.update_of_ne apart]
    · intro old isOld
      rw [unnamed] at isOld
      cases isOld
    · rintro _ ⟨⟩
      exact ⟨Ne.symm differ, childless⟩

/-- A file without names in it is removed. -/
theorem Sound.remove
    (sound : Sound store root)
    (leads : resolve (Dir.look store) root path = some dir)
    (stored : store.nodes dir = some node)
    (isDir : node.fileType = .dir)
    (found : findIn node.contents name.bytes = .fileExists offset ent)
    (childless : ∀ other, Dir.look store ent.gname other = none)
    (nodes : next.nodes = Function.update store.nodes dir
      (some (node.withContents
        (overwrite node.contents offset ent.unused.bytes)))) :
    Sound next root ∧
      treeOf next root =
        Function.update (treeOf store root) (path ++ [name]) none := by
  obtain ⟨book, table⟩ := sound.tables dir node stored isDir
  obtain ⟨book', table', bound⟩ := table.remove name found
  have rewrites : Rewrites store next dir node
      (overwrite node.contents offset ent.unused.bytes) :=
    ⟨stored, isDir, nodes⟩
  have looks := rewrites.look table table' bound
  have named : Dir.look store dir name = some ent.gname := by
    rw [look_of_dir stored isDir, found]
    rfl
  refine ⟨⟨rewrites.sane sound.toSane table', ?_, ?_⟩, ?_⟩
  · intro parent label child isChild
    rw [rewrites.exists_iff]
    rw [looks, setEntry] at isChild
    split at isChild
    · cases isChild
    · exact sound.stored parent label child isChild
  · rw [looks]
    exact sound.forest.setEntry_none
  · refine treeOf_setEntry sound leads looks ?_ ?_ ?_
    · intro other _
      rw [rewrites.kindOf]
    · intro old isOld
      rw [named] at isOld
      cases isOld
      exact childless
    · rintro new ⟨⟩

/-- The entry of a file is added under a second name. -/
theorem Sane.add
    (sane : Sane store root)
    (stored : store.nodes dir = some node)
    (isDir : node.fileType = .dir)
    (found : (findIn node.contents name.bytes).offset = some offset)
    (nodes : next.nodes = Function.update store.nodes dir
      (some (node.withContents (overwrite node.contents offset
        (PhysEnt.named name.bytes gname).bytes)))) :
    Sane next root ∧
      Dir.look next = setEntry (Dir.look store) dir name (some gname) ∧
      Dir.kindOf next = Dir.kindOf store ∧
      (∀ other, next.nodes other ≠ none ↔ store.nodes other ≠ none) := by
  obtain ⟨book, table⟩ := sane.tables dir node stored isDir
  obtain ⟨book', place, table', bound⟩ := table.add name gname found
  have rewrites : Rewrites store next dir node (overwrite node.contents offset
      (PhysEnt.named name.bytes gname).bytes) := ⟨stored, isDir, nodes⟩
  exact ⟨rewrites.sane sane table', rewrites.look table table' bound,
    rewrites.kindOf, rewrites.exists_iff⟩

/-- The first name of a file is removed after it was added under a second
one. -/
theorem Sound.move
    {middle : Store}
    (sound : Sound store root)
    (moves : Moves (Dir.look store) root path dir name target place name'
      gname)
    (sane : Sane middle root)
    (added : Dir.look middle =
      setEntry (Dir.look store) place name' (some gname))
    (sameKinds : Dir.kindOf middle = Dir.kindOf store)
    (sameFiles : ∀ other,
      middle.nodes other ≠ none ↔ store.nodes other ≠ none)
    (stored : middle.nodes dir = some node)
    (isDir : node.fileType = .dir)
    (found : findIn node.contents name.bytes = .fileExists offset ent)
    (nodes : next.nodes = Function.update middle.nodes dir
      (some (node.withContents
        (overwrite node.contents offset ent.unused.bytes)))) :
    Sound next root ∧
      treeOf next root =
        moved (treeOf store root) (path ++ [name]) (target ++ [name']) := by
  obtain ⟨book, table⟩ := sane.tables dir node stored isDir
  obtain ⟨book', table', bound⟩ := table.remove name found
  have rewrites : Rewrites middle next dir node
      (overwrite node.contents offset ent.unused.bytes) :=
    ⟨stored, isDir, nodes⟩
  have looks : Dir.look next =
      moveEntry (Dir.look store) dir name place name' gname := by
    rw [rewrites.look table table' bound, added]
    rfl
  refine ⟨⟨rewrites.sane sane table', ?_, ?_⟩, ?_⟩
  · intro parent label child isChild
    rw [rewrites.exists_iff, sameFiles]
    rw [looks, moveEntry, setEntry] at isChild
    split at isChild
    · cases isChild
    · rw [setEntry] at isChild
      split at isChild
      · cases isChild
        exact sound.stored dir name gname moves.entry
      · exact sound.stored parent label child isChild
  · rw [looks]
    exact moves.forest_moveEntry
  · funext other
    rw [treeOf, looks, moves.resolve_moveEntry, rewrites.kindOf, sameKinds,
      moved, moved]
    split
    · rfl
    · split
      · rfl
      · rfl

end Changes

end Dir
end Gdpfs
