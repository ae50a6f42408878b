import Gdpfs.Dir.Paths

/-!
# Paths and what they resolve to

A walk along a path looks up its components one after the other.  If no call
fails and a handle is free, it ends at the file that the components resolve to.
-/

namespace Gdpfs
namespace Dir

open Log File Effect

/-- The type that the file at a path is opened with: a slash at the end asks for
a directory. -/
def finalType (path : List UInt8) (type : FileType) : FileType :=
  if path.getLast? = some slash then .dir else type

/-! ## Resolution -/

/-- The file of a name in a directory. -/
def entryOf (store : Store) (dir : GdpName) (name : List UInt8) :
    Option GdpName :=
  match store.nodes dir with
  | none => none
  | some node => (findIn node.contents name).file

/-- Whether a file exists and has a type. -/
def hasType (store : Store) (gname : GdpName) (type : FileType) : Bool :=
  match store.nodes gname with
  | none => false
  | some node => type = .unknown || node.fileType = type

/-- The file that components lead to from a directory.  All but the last one must
be directories. -/
def walkTo (store : Store) (type : FileType) :
    GdpName → List (List UInt8) → Option GdpName
  | dir, [] => some dir
  | dir, name :: rest =>
      match entryOf store dir name with
      | none => none
      | some gname =>
          if hasType store gname (if rest.isEmpty then type else .dir) then
            walkTo store type gname rest
          else none

/-- The components that a walk looks up. -/
def lookedUp (store : Store) : GdpName → List (List UInt8) → List (List UInt8)
  | _, [] => []
  | dir, name :: rest => name ::
      match entryOf store dir name with
      | none => []
      | some gname =>
          if hasType store gname .dir then lookedUp store gname rest else []

/-- The store after a walk that should end at a file, or fail. -/
def Arrives (store : Store) (target : Option GdpName) (next : Store)
    (result : Except Stat Nat) : Prop :=
  match target with
  | none => ∃ stat, result = .error stat ∧ stat.isOk = false ∧ next = store
  | some gname => ∃ fh, result = .ok fh ∧ store.fhs fh = none ∧ fh < maxFhs ∧
      next = store.withHandle fh gname

/-- A file that has a type exists. -/
theorem stored_of_hasType
    {store : Store}
    (typed : hasType store gname type = true) :
    ∃ node, store.nodes gname = some node := by
  rw [hasType] at typed
  cases stored : store.nodes gname with
  | none =>
      rw [stored] at typed
      cases typed
  | some node => exact ⟨node, rfl⟩

theorem entryOf_stored
    {store : Store}
    (stored : store.nodes dir = some node)
    (name : List UInt8) :
    entryOf store dir name = (findIn node.contents name).file := by
  rw [entryOf, stored]

/-- There is a handle to spare if one is not reserved. -/
theorem nextFree_ne_none
    {store : Store}
    (unused : store.fhs fh = none)
    (below : fh < maxFhs) :
    store.nextFree ≠ none := by
  intro full
  rw [Store.nextFree] at full
  have reserved := List.find?_eq_none.mp full fh (List.mem_range.mpr below)
  rw [unused] at reserved
  exact reserved rfl

section Walk

variable {env : DirEnv} {fs : Fs}

/-- With a handle to spare, a file of the right type is opened. -/
theorem ensures_open
    (smooth : Smooth env)
    (spare : fs.store.nextFree ≠ none)
    (gname : GdpName)
    (type : FileType) :
    Ensures (gdpfsFileOpenType env gname type)
      (fun result next => Arrives fs.store
        (if hasType fs.store gname type then some gname else none) next.store
        result ∧ next.copies = fs.copies) fs := by
  refine (ensures_gdpfsFileOpenType env fs gname type).mono ?_
  rintro result next ⟨opens, copies⟩
  refine ⟨?_, copies⟩
  cases result with
  | error stat =>
      obtain ⟨same, fails, reason⟩ := opens
      have status := reason smooth spare
      have untyped : hasType fs.store gname type = false := by
        rw [openStat.eq_def] at status
        rw [hasType]
        cases stored : fs.store.nodes gname with
        | none => rfl
        | some node =>
            rw [stored] at status
            dsimp only at status ⊢
            split at status
            · cases status
            · next differs =>
                rw [← Bool.decide_or, decide_eq_false differs]
      rw [untyped, if_neg Bool.false_ne_true]
      exact ⟨stat, rfl, fails, same⟩
  | ok fh =>
      obtain ⟨unused, below, ⟨node, stored, typed⟩, reserved⟩ := opens
      have isTyped : hasType fs.store gname type = true := by
        rw [hasType, stored]
        dsimp only
        rw [← Bool.decide_or, decide_eq_true typed]
      rw [isTyped, if_pos rfl]
      exact ⟨fh, rfl, unused, below, reserved⟩

/-- The end of a path is that of what follows a part of it. -/
theorem finalType_append
    (early : List UInt8)
    (more : later ≠ [])
    (type : FileType) :
    finalType (early ++ later) type = finalType later type := by
  rw [finalType, finalType, List.getLast?_append_of_ne_nil _ more]

theorem finalType_afterComponent
    (more : afterComponent path ≠ [])
    (type : FileType) :
    finalType path type = finalType (afterComponent path) type := by
  have split : component path ++ afterComponent path = path :=
    List.takeWhile_append_dropWhile
  rw [← finalType_append (component path) more type, split]

/-- A path that is a component does not end with a slash. -/
theorem finalType_component
    (none : afterComponent path = [])
    (type : FileType) :
    finalType path type = type := by
  refine if_neg fun ends => ?_
  have split : component path ++ afterComponent path = path :=
    List.takeWhile_append_dropWhile
  rw [none, List.append_nil] at split
  rw [← split, component] at ends
  have nonslash := List.mem_takeWhile_imp (List.mem_of_getLast? ends)
  exact of_decide_eq_true nonslash rfl

/-- A path without components is a row of slashes. -/
theorem finalType_slashes
    (noComponents : components path = [])
    (nonempty : path ≠ [])
    (type : FileType) :
    finalType path type = .dir := by
  induction path with
  | nil => exact absurd rfl nonempty
  | cons byte rest inductionHypothesis =>
      by_cases isSlash : byte = slash
      · rw [isSlash, components_slash] at noComponents
        rw [isSlash]
        cases rest with
        | nil => rfl
        | cons next more =>
            have last := inductionHypothesis noComponents
              (List.cons_ne_nil next more)
            rw [← List.singleton_append,
              finalType_append [slash] (List.cons_ne_nil next more), last]
      · rw [components_cons isSlash] at noComponents
        cases noComponents

/-- The type that a walk asks for behind a component. -/
theorem currType_eq (path : List UInt8) (type : FileType) :
    (if (afterComponent path).isEmpty then type else FileType.dir) =
      if (components (afterComponent path)).isEmpty then finalType path type
      else .dir := by
  cases after : afterComponent path with
  | nil => exact (finalType_component after type).symm
  | cons byte rest =>
      have more : afterComponent path ≠ [] := by
        rw [after]
        exact List.cons_ne_nil byte rest
      rw [finalType_afterComponent more, after]
      cases behind : components (byte :: rest) with
      | nil => exact (finalType_slashes behind (List.cons_ne_nil _ _) _).symm
      | cons name others => rfl

/-- What the components behind a name lead to. -/
theorem walkTo_cons
    {store : Store}
    (found : entryOf store dir name = some gname) :
    walkTo store type dir (name :: rest) =
      if hasType store gname (if rest.isEmpty then type else .dir) then
        walkTo store type gname rest
      else none := by
  rw [walkTo, found]

theorem walkTo_cons_none
    {store : Store}
    (missing : entryOf store dir name = none) :
    walkTo store type dir (name :: rest) = none := by
  rw [walkTo, missing]

/-- A slash in front of a path. -/
theorem walkTo_slash
    (store : Store)
    (type : FileType)
    (dir : GdpName)
    (rest : List UInt8) :
    walkTo store (finalType (slash :: rest) type) dir (components rest) =
      walkTo store (finalType rest type) dir (components rest) := by
  cases rest with
  | nil => rfl
  | cons next more =>
      have ends := finalType_append [slash] (List.cons_ne_nil next more) type
      rw [List.singleton_append] at ends
      rw [ends]

/-- What follows a component ends like the path. -/
theorem walkTo_afterComponent
    (store : Store)
    (path : List UInt8)
    (type : FileType)
    (dir : GdpName) :
    walkTo store (finalType path type) dir (components (afterComponent path)) =
      walkTo store (finalType (afterComponent path) type) dir
        (components (afterComponent path)) := by
  cases after : afterComponent path with
  | nil => rfl
  | cons first others =>
      have more : afterComponent path ≠ [] := by
        rw [after]
        exact List.cons_ne_nil first others
      rw [finalType_afterComponent more, after]

/-- The components that are looked up behind a name. -/
theorem lookedUp_cons
    {store : Store}
    (found : entryOf store dir name = some gname)
    (rest : List (List UInt8))
    (type : FileType) :
    lookedUp store dir (name :: rest) = name ::
      if hasType store gname (if rest.isEmpty then type else .dir) then
        lookedUp store gname rest
      else [] := by
  rw [lookedUp, found]
  cases rest with
  | nil =>
      dsimp only
      rw [lookedUp, ite_self, ite_self]
  | cons next more => rfl

theorem lookedUp_cons_none
    {store : Store}
    (missing : entryOf store dir name = none)
    (rest : List (List UInt8)) :
    lookedUp store dir (name :: rest) = [name] := by
  rw [lookedUp, missing]

/-- A walk copies a component, looks it up, and closes the directory. -/
theorem ensures_walk_component
    {store : Store}
    {rest : Found → DirM α}
    {post : α → Fs → Prop}
    (reads : ∀ tick, env.chance .read tick = true)
    (unused : store.fhs fh = none)
    (stored : store.nodes dir = some node)
    (reserved : fs.store = store.withHandle fh dir)
    (name : List UInt8)
    (later : ∀ next : Fs, next.store = store →
      next.copies = nameCopy name :: fs.copies →
      Ensures (rest (findIn node.contents name)) post next) :
    Ensures (do
      copyName (nameMaxGdpfs + 1) (name.length + 1)
      let found ← findInsertOffset env fh name
      gdpfsFileClose fh
      rest found) post fs := by
  have opened := openOn_withHandle stored reserved
  have copied : OpenOn { fs with copies := nameCopy name :: fs.copies } fh dir
      node := ⟨opened.handle, opened.node⟩
  rw [ensures_bind, copyName, ensures_bind, ensures_get, ensures_set]
  refine (ensures_findInsertOffset reads copied name).bind ?_
  rintro _ next ⟨rfl, same, copies⟩
  rw [ensures_run_bind (run_close_opened unused (same.trans reserved))]
  exact later _ rfl copies

/-- A walk from an open directory arrives where the components lead, and copies
those that it looks up. -/
theorem ensures_walkLoop
    {store : Store}
    (smooth : Smooth env)
    (path : List UInt8)
    (type : FileType)
    (unused : store.fhs fh = none)
    (below : fh < maxFhs)
    (stored : store.nodes dir = some node)
    (reserved : fs.store = store.withHandle fh dir)
    (enough : path.length < rounds) :
    Ensures (walkLoop env type rounds path fh)
      (fun result next => Arrives store
          (walkTo store (finalType path type) dir (components path)) next.store
          result ∧
        next.copies = ((lookedUp store dir (components path)).map
          nameCopy).reverse ++ fs.copies) fs := by
  induction rounds generalizing fs path fh dir node with
  | zero => exact absurd enough (Nat.not_lt_zero _)
  | succ rounds inductionHypothesis =>
      rw [walkLoop.eq_def]
      dsimp only
      cases path with
      | nil =>
          exact ensures_pure.mpr ⟨⟨fh, rfl, unused, below, reserved⟩, rfl⟩
      | cons byte rest =>
          dsimp only
          split
          · next isSlash =>
              have later := inductionHypothesis rest unused below stored
                reserved (Nat.lt_of_succ_lt_succ enough)
              rw [isSlash, components_slash, walkTo_slash]
              exact later
          · next differs =>
              rw [components_cons differs]
              refine ensures_walk_component (smooth .read) unused stored
                reserved _ ?_
              intro between same copies
              have entry := entryOf_stored stored (component (byte :: rest))
              cases found : findIn node.contents (component (byte :: rest)) with
              | free offset =>
                  rw [found] at entry
                  rw [walkTo_cons_none entry, lookedUp_cons_none entry]
                  exact ensures_pure.mpr ⟨⟨_, rfl, rfl, same⟩, copies⟩
              | corrupt =>
                  rw [found] at entry
                  rw [walkTo_cons_none entry, lookedUp_cons_none entry]
                  exact ensures_pure.mpr ⟨⟨_, rfl, rfl, same⟩, copies⟩
              | fileExists offset ent =>
                  rw [found] at entry
                  rw [walkTo_cons entry, currType_eq,
                    lookedUp_cons entry _ (finalType (byte :: rest) type)]
                  have spare : between.store.nextFree ≠ none := by
                    rw [same]
                    exact nextFree_ne_none unused below
                  refine (ensures_open smooth spare _ _).bind ?_
                  rintro result last ⟨arrives, kept⟩
                  rw [same] at arrives
                  rw [copies] at kept
                  generalize (if (components
                    (afterComponent (byte :: rest))).isEmpty = true then
                      finalType (byte :: rest) type
                    else FileType.dir) = currType at arrives ⊢
                  by_cases typed : hasType store ent.gname currType = true
                  · rw [if_pos typed] at arrives ⊢
                    rw [if_pos typed]
                    obtain ⟨next, rfl, unused', below', reserved'⟩ := arrives
                    obtain ⟨node', stored'⟩ := stored_of_hasType typed
                    refine (inductionHypothesis (afterComponent (byte :: rest))
                      unused' below' stored' reserved' ?_).mono ?_
                    · have most := length_afterComponent rest
                      rw [afterComponent_cons differs]
                      rw [List.length_cons] at enough
                      omega
                    · rintro result final ⟨arrives, copied⟩
                      refine ⟨?_, ?_⟩
                      · rw [walkTo_afterComponent]
                        exact arrives
                      · rw [copied, kept, List.map_cons, List.reverse_cons,
                          List.append_assoc, List.singleton_append]
                  · rw [if_neg typed] at arrives ⊢
                    rw [if_neg typed]
                    obtain ⟨stat, rfl, fails, unchanged⟩ := arrives
                    exact ensures_pure.mpr
                      ⟨⟨stat, rfl, fails, unchanged⟩, kept⟩

/-- `gdpfs_dir_open_file_at_path` opens the file that the components of the path
lead to from the root. -/
theorem ensures_gdpfsDirOpenFileAtPath
    (smooth : Smooth env)
    (spare : fs.store.nextFree ≠ none)
    (root : hasType fs.store env.rootLogGname .dir = true)
    (rest : List UInt8)
    (type : FileType) :
    Ensures (gdpfsDirOpenFileAtPath env (slash :: rest) type)
      (fun result next => Arrives fs.store
          (walkTo fs.store (finalType (slash :: rest) type) env.rootLogGname
            (components rest)) next.store result ∧
        next.copies = ((lookedUp fs.store env.rootLogGname
          (components rest)).map nameCopy).reverse ++ fs.copies) fs := by
  rw [gdpfsDirOpenFileAtPath, if_neg (fun differs => differs rfl)]
  refine (ensures_open smooth spare _ _).bind ?_
  rintro result next ⟨arrives, copies⟩
  rw [root, if_pos rfl] at arrives
  obtain ⟨fh, rfl, unused, below, reserved⟩ := arrives
  obtain ⟨node, stored⟩ := stored_of_hasType root
  rw [← components_slash, ← copies]
  exact ensures_walkLoop smooth (slash :: rest) type unused below stored
    reserved (Nat.lt_succ_self _)

/-! ## Parents -/

/-- The directory part of a path starts with a slash. -/
theorem dirname_slash (rest : List UInt8) :
    ∃ more, dirname (slash :: rest) = slash :: more := by
  rw [dirname]
  generalize isParent : (((slash :: rest).rdropWhile (· = slash)).rdropWhile
    (· ≠ slash)).rdropWhile (· = slash) = parent
  have early : parent <+: slash :: rest := by
    rw [← isParent]
    have drops := @List.rdropWhile_prefix UInt8
    exact (drops _ _).trans ((drops _ _).trans (drops _ _))
  cases parent with
  | nil => exact ⟨[], rfl⟩
  | cons first more =>
      obtain ⟨same, _⟩ := List.cons_prefix_cons.mp early
      exact ⟨more, by rw [same]; rfl⟩

theorem finalType_dir (path : List UInt8) : finalType path .dir = .dir :=
  ite_self _

/-- The directory that a file at a path is in. -/
def parentOf (env : DirEnv) (store : Store) (filepath : List UInt8) :
    Option GdpName :=
  walkTo store .dir env.rootLogGname (components (dirname filepath))

/-- The store after an attempt to open the parent of a file. -/
def ParentArrives (env : DirEnv) (store : Store) (filepath : List UInt8)
    (next : Store) (result : Except Stat (Nat × List UInt8)) : Prop :=
  match parentOf env store filepath with
  | none => ∃ stat, result = .error stat ∧ stat.isOk = false ∧ next = store
  | some dir => ∃ fh, result = .ok (fh, basename filepath) ∧
      store.fhs fh = none ∧ fh < maxFhs ∧ next = store.withHandle fh dir

theorem ensures_openParentDir
    (smooth : Smooth env)
    (spare : fs.store.nextFree ≠ none)
    (root : hasType fs.store env.rootLogGname .dir = true)
    (rest : List UInt8) :
    Ensures (openParentDir env (slash :: rest))
      (fun result next => ParentArrives env fs.store (slash :: rest) next.store
        result) fs := by
  obtain ⟨more, isDirname⟩ := dirname_slash rest
  have spareLater : (fs.later 1).store.nextFree ≠ none := spare
  have rootLater : hasType (fs.later 1).store env.rootLogGname .dir = true :=
    root
  rw [openParentDir, if_neg (fun differs => differs rfl),
    ensures_run_bind (run_succeeds .memory), smooth .memory fs.tick,
    Bool.not_true, if_neg Bool.false_ne_true, isDirname]
  refine (ensures_gdpfsDirOpenFileAtPath smooth spareLater rootLater more
    .dir).bind ?_
  rintro result next ⟨arrives, _⟩
  rw [finalType_dir, ← components_slash, ← isDirname] at arrives
  change Arrives fs.store (parentOf env fs.store (slash :: rest)) next.store
    result at arrives
  cases leads : parentOf env fs.store (slash :: rest) with
  | none =>
      rw [leads] at arrives
      obtain ⟨stat, rfl, fails, same⟩ := arrives
      refine ensures_pure.mpr ?_
      rw [ParentArrives, leads]
      exact ⟨stat, rfl, fails, same⟩
  | some dir =>
      rw [leads] at arrives
      obtain ⟨fh, rfl, unused, below, reserved⟩ := arrives
      refine ensures_pure.mpr ?_
      rw [ParentArrives, leads]
      exact ⟨fh, rfl, unused, below, reserved⟩

/-- The parent of a file is opened if its path leads to it. -/
theorem parentOpened_of_leads
    (smooth : Smooth env)
    (spare : fs.store.nextFree ≠ none)
    (root : hasType fs.store env.rootLogGname .dir = true)
    (leads : parentOf env fs.store (slash :: rest) = some dir)
    (stored : fs.store.nodes dir = some node) :
    ∃ dirfh between,
      ParentOpened env fs (slash :: rest) dirfh between dir node := by
  obtain ⟨result, between, run, arrives⟩ :=
    ensures_openParentDir smooth spare root rest
  rw [ParentArrives, leads] at arrives
  obtain ⟨dirfh, rfl, _, _, reserved⟩ := arrives
  exact ⟨dirfh, between, run, openOn_withHandle stored reserved⟩

end Walk

end Dir
end Gdpfs
