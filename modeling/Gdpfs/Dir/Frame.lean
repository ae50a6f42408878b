import Gdpfs.Dir.Components
import Gdpfs.Dir.Files

/-!
# Handles and files that a call leaves alone

Whatever fails, a search in a directory leaves the store as it was, and a walk
along a path leaves at most the handle that it returns.
-/

namespace Gdpfs
namespace Dir

open Log File Effect

/-- The store after an attempt to open some file. -/
def Reserves (store next : Store) : Except Stat Nat → Prop
  | .ok fh => store.fhs fh = none ∧ fh < maxFhs ∧
      ∃ gname, (∃ node, store.nodes gname = some node) ∧
        next = store.withHandle fh gname
  | .error stat => next = store ∧ stat.isOk = false

theorem Opens.reserves
    (opens : Opens env store gname type next result) :
    Reserves store next result := by
  cases result with
  | error stat => exact ⟨opens.1, opens.2.1⟩
  | ok fh =>
      obtain ⟨unused, below, ⟨node, stored, _⟩, reserved⟩ := opens
      exact ⟨unused, below, gname, ⟨node, stored⟩, reserved⟩

section Frame

variable {env : DirEnv} {fs : Fs}

theorem allows_lookupFh (fh : Nat) :
    Allows (lookupFh fh)
      (fun gname next => next = fs ∧ fs.store.fhs fh = some gname) fs := by
  rw [lookupFh, allows_bind, allows_get]
  cases handle : fs.store.fhs fh with
  | none => exact allows_throw
  | some gname => exact allows_pure.mpr ⟨rfl, rfl⟩

theorem allows_fileOf (fh : Nat) :
    Allows (fileOf fh)
      (fun found next => next = fs ∧ OpenOn fs fh found.1 found.2) fs := by
  rw [fileOf]
  refine (allows_lookupFh fh).bind ?_
  rintro gname state ⟨rfl, handle⟩
  rw [allows_bind, allows_get]
  cases stored : state.store.nodes gname with
  | none => exact allows_throw
  | some node => exact allows_pure.mpr ⟨rfl, handle, stored⟩

theorem allows_gdpfsFileRead (fh size offset : Nat) :
    Allows (gdpfsFileRead env fh size offset)
      (fun _ next => next = fs.later 1) fs := by
  rw [gdpfsFileRead]
  refine (allows_fileOf fh).bind ?_
  rintro ⟨gname, node⟩ _ ⟨rfl, _⟩
  dsimp only
  rw [allows_run_bind (run_succeeds .read)]
  split
  · exact allows_pure.mpr rfl
  · exact allows_pure.mpr rfl

/-- A search changes neither the store nor any name. -/
theorem allows_findLoop
    (fh : Nat)
    (name : List UInt8)
    (rounds offset : Nat)
    (insertOffset : Option Nat) :
    Allows (findLoop env fh name rounds offset insertOffset)
      (fun _ next => next.store = fs.store ∧ next.copies = fs.copies) fs := by
  induction rounds generalizing fs offset insertOffset with
  | zero => exact allows_throw
  | succ rounds inductionHypothesis =>
      rw [findLoop]
      refine (allows_gdpfsFileRead fh physSize offset).bind ?_
      rintro block _ rfl
      split
      · exact allows_pure.mpr ⟨rfl, rfl⟩
      · split
        · exact allows_pure.mpr ⟨rfl, rfl⟩
        · dsimp only
          split
          · split
            · exact allows_pure.mpr ⟨rfl, rfl⟩
            · exact inductionHypothesis _ _
          · exact inductionHypothesis _ _

theorem allows_roundsFor (fh : Nat) :
    Allows (roundsFor fh)
      (fun _ next => next = fs ∧ ∃ gname, fs.store.fhs fh = some gname)
      fs := by
  rw [roundsFor]
  refine (allows_fileOf fh).bind ?_
  rintro ⟨gname, node⟩ _ ⟨rfl, opened⟩
  exact allows_pure.mpr ⟨rfl, gname, opened.handle⟩

theorem allows_findInsertOffset (fh : Nat) (name : List UInt8) :
    Allows (findInsertOffset env fh name)
      (fun _ next => next.store = fs.store ∧ next.copies = fs.copies) fs := by
  rw [findInsertOffset]
  refine (allows_roundsFor fh).bind ?_
  rintro rounds _ ⟨rfl, _⟩
  exact allows_findLoop fh name rounds 0 none

theorem allows_dirReadLoop (fh rounds offset : Nat) :
    Allows (dirReadLoop env fh rounds offset)
      (fun read next => next.store = fs.store ∧
        next.copies = read.copies ++ fs.copies) fs := by
  induction rounds generalizing fs offset with
  | zero => exact allows_throw
  | succ rounds inductionHypothesis =>
      rw [dirReadLoop]
      refine (allows_gdpfsFileRead fh physSize offset).bind ?_
      rintro block _ rfl
      split
      · exact allows_pure.mpr ⟨rfl, rfl⟩
      · split
        · exact allows_pure.mpr ⟨rfl, rfl⟩
        · dsimp only
          split
          · rw [allows_bind, copyName, allows_bind, allows_get, allows_set]
            exact allows_pure.mpr ⟨rfl, rfl⟩
          · exact inductionHypothesis _

theorem allows_gdpfsDirRead (fh offset : Nat) :
    Allows (gdpfsDirRead env fh offset)
      (fun read next => next.store = fs.store ∧
        next.copies = read.copies ++ fs.copies) fs := by
  rw [gdpfsDirRead]
  refine (allows_roundsFor fh).bind ?_
  rintro rounds _ ⟨rfl, _⟩
  exact allows_dirReadLoop fh rounds offset

theorem allows_gdpfsDirIsempty (fh : Nat) :
    Allows (gdpfsDirIsempty env fh)
      (fun _ next => next.store = fs.store) fs := by
  rw [gdpfsDirIsempty]
  refine (allows_gdpfsDirRead fh 0).bind ?_
  rintro read next ⟨store, _⟩
  cases read with
  | ok name offset => exact allows_pure.mpr store
  | eof => exact allows_pure.mpr store
  | corrupt => exact allows_pure.mpr store

theorem allows_gdpfsFileClose (fh : Nat) :
    Allows (gdpfsFileClose fh)
      (fun _ next => next = { fs with store := fs.store.closed fh }) fs := by
  rw [gdpfsFileClose]
  refine (allows_lookupFh fh).bind ?_
  rintro gname _ ⟨rfl, _⟩
  exact (allows_of_run (run_release fh)).mpr rfl

theorem allows_gdpfsFileWrite (fh : Nat) (buf : List UInt8) (offset : Nat) :
    Allows (gdpfsFileWrite env fh buf offset)
      (fun _ next => next.store.fhs = fs.store.fhs) fs := by
  rw [gdpfsFileWrite]
  refine (allows_fileOf fh).bind ?_
  rintro ⟨gname, node⟩ state ⟨rfl, _⟩
  dsimp only
  rw [allows_bind, allows_get, allows_run_bind (run_succeeds .write)]
  split
  · exact fun _ _ run => by cases run; rfl
  · exact fun _ _ run => by cases run; rfl

theorem allows_gdpfsFileGetInfo (fh : Nat) :
    Allows (gdpfsFileGetInfo env fh)
      (fun _ next => next.store = fs.store) fs := by
  rw [gdpfsFileGetInfo]
  refine (allows_fileOf fh).bind ?_
  rintro ⟨gname, node⟩ state ⟨rfl, _⟩
  dsimp only
  rw [allows_run_bind (run_succeeds .info)]
  split
  · exact allows_pure.mpr rfl
  · exact allows_pure.mpr rfl

theorem allows_addAtOffset
    (fh offset : Nat)
    (name : List UInt8)
    (gname : GdpName) :
    Allows (addAtOffset env fh offset name gname)
      (fun _ next => next.store.fhs = fs.store.fhs) fs := by
  rw [addAtOffset, allows_bind, copyName, allows_bind, allows_get, allows_set]
  refine (allows_gdpfsFileWrite fh _ offset).bind ?_
  exact fun _ _ same => allows_pure.mpr same

/-! ## Checks -/

theorem allows_checkEmpty
    {store : Store}
    {gname : GdpName}
    (unused : store.fhs fh = none)
    (reserved : fs.store = store.withHandle fh gname) :
    Allows (checkEmpty env fh) (fun _ next => next.store = store) fs := by
  rw [checkEmpty]
  refine (allows_gdpfsDirIsempty fh).bind ?_
  rintro isempty next same
  rw [allows_run_bind (run_close_opened unused (same.trans reserved))]
  split
  · exact allows_pure.mpr rfl
  · exact allows_pure.mpr rfl
  · exact allows_pure.mpr rfl

theorem allows_removable (gname : GdpName) (type : FileType) :
    Allows (removable env gname type)
      (fun _ next => next.store = fs.store) fs := by
  rw [removable]
  split
  · exact allows_pure.mpr rfl
  · refine (ensures_gdpfsFileOpenType env fs gname type).allows.bind ?_
    rintro result next ⟨opens, _⟩
    cases result with
    | error stat => exact allows_pure.mpr opens.1
    | ok fh =>
        obtain ⟨unused, _, _, reserved⟩ := opens
        dsimp only
        split
        · exact allows_checkEmpty unused reserved
        · rw [allows_run_bind (run_close_opened unused reserved)]
          exact allows_pure.mpr rfl

theorem allows_replaceable (gname : GdpName) (f1type : FileType) :
    Allows (replaceable env gname f1type)
      (fun _ next => next.store = fs.store) fs := by
  rw [replaceable]
  refine (ensures_gdpfsFileOpenType env fs gname .unknown).allows.bind ?_
  rintro result next ⟨opens, _⟩
  cases result with
  | error stat => exact allows_pure.mpr opens.1
  | ok fh =>
      obtain ⟨unused, _, _, reserved⟩ := opens
      refine (allows_gdpfsFileGetInfo fh).bind ?_
      rintro info after same
      have held := same.trans reserved
      have close := run_close_opened unused held
      cases info with
      | error stat =>
          rw [allows_run_bind close]
          exact allows_pure.mpr rfl
      | ok node =>
          dsimp only
          split
          · rw [allows_run_bind close]
            exact allows_pure.mpr rfl
          · split
            · exact allows_checkEmpty unused held
            · rw [allows_run_bind close]
              exact allows_pure.mpr rfl

theorem allows_gdpfsDirRemove
    (fh : Nat)
    (name : List UInt8)
    (type : FileType) :
    Allows (gdpfsDirRemove env fh name type)
      (fun _ next => next.store.fhs = fs.store.fhs) fs := by
  rw [gdpfsDirRemove]
  refine (allows_findInsertOffset fh name).bind ?_
  rintro found next ⟨same, _⟩
  cases found with
  | free offset => exact allows_pure.mpr (congrArg Store.fhs same)
  | corrupt => exact allows_pure.mpr (congrArg Store.fhs same)
  | fileExists offset ent =>
      refine (allows_removable ent.gname type).bind ?_
      rintro stat after unchanged
      split
      · refine (allows_gdpfsFileWrite fh _ offset).bind ?_
        intro size last kept
        refine allows_pure.mpr ?_
        rw [kept, unchanged, same]
      · refine allows_pure.mpr ?_
        rw [unchanged, same]

/-! ## Walks -/

theorem OpenOn.run_gdpfsFileRead_any
    {node : Node}
    (opened : OpenOn fs fh gname node)
    (env : DirEnv)
    (size offset : Nat) :
    ∃ block : List UInt8, block.length ≤ node.contents.length - offset ∧
      (gdpfsFileRead env fh size offset).run fs = .ok (block, fs.later 1) := by
  rw [gdpfsFileRead, run_bind_of_run opened.run_fileOf]
  dsimp only
  rw [run_bind_of_run (run_succeeds .read)]
  cases env.chance .read fs.tick with
  | false => exact ⟨[], Nat.zero_le _, rfl⟩
  | true =>
      refine ⟨(node.contents.drop offset).take size, ?_, rfl⟩
      rw [List.length_take, List.length_drop]
      exact Nat.min_le_right _ _

/-- A search has enough rounds, whichever reads fail. -/
theorem OpenOn.returns_findLoop
    {node : Node}
    (opened : OpenOn fs fh gname node)
    (name : List UInt8)
    (insertOffset : Option Nat)
    (enough : node.contents.length ≤ offset + rounds) :
    Ensures (findLoop env fh name (rounds + 1) offset insertOffset)
      (fun _ _ => True) fs := by
  induction rounds generalizing fs offset insertOffset with
  | zero =>
      obtain ⟨block, short, run⟩ :=
        opened.run_gdpfsFileRead_any env physSize offset
      rw [findLoop, ensures_run_bind run, if_pos (by omega)]
      exact ensures_pure.mpr trivial
  | succ rounds inductionHypothesis =>
      obtain ⟨block, short, run⟩ :=
        opened.run_gdpfsFileRead_any env physSize offset
      rw [findLoop, ensures_run_bind run]
      split
      · exact ensures_pure.mpr trivial
      · split
        · exact ensures_pure.mpr trivial
        · next whole =>
            have later : node.contents.length ≤
                offset + physSize + rounds := by
              rw [physSize] at whole ⊢
              omega
            dsimp only
            split
            · split
              · exact ensures_pure.mpr trivial
              · exact inductionHypothesis (opened.later 1) _ later
            · exact inductionHypothesis (opened.later 1) _ later

theorem OpenOn.returns_findInsertOffset
    {node : Node}
    (opened : OpenOn fs fh gname node)
    (name : List UInt8) :
    Ensures (findInsertOffset env fh name)
      (fun _ next => next.store = fs.store ∧ next.copies = fs.copies) fs := by
  refine (allows_findInsertOffset fh name).ensures ?_
  rw [findInsertOffset, ensures_run_bind opened.run_roundsFor]
  exact opened.returns_findLoop name none (Nat.le_of_eq (Nat.zero_add _).symm)

/-- The copy of a component. -/
def nameCopy (name : List UInt8) : Copy := ⟨nameMaxGdpfs + 1, name.length + 1⟩

/-- A walk that started from an open directory: it copies some of the first
components. -/
theorem returns_walkLoop
    {store : Store}
    (type : FileType)
    (path : List UInt8)
    (unused : store.fhs fh = none)
    (below : fh < maxFhs)
    (stored : store.nodes gname = some node)
    (reserved : fs.store = store.withHandle fh gname)
    (enough : path.length < rounds) :
    Ensures (walkLoop env type rounds path fh)
      (fun result next => Reserves store next.store result ∧
        ∃ names, names <+: components path ∧
          next.copies = (names.map nameCopy).reverse ++ fs.copies) fs := by
  induction rounds generalizing fs path fh gname node with
  | zero => exact absurd enough (Nat.not_lt_zero _)
  | succ rounds inductionHypothesis =>
      rw [walkLoop.eq_def]
      dsimp only
      cases path with
      | nil =>
          exact ensures_pure.mpr
            ⟨⟨unused, below, gname, ⟨node, stored⟩, reserved⟩, [],
              List.nil_prefix, rfl⟩
      | cons byte rest =>
          dsimp only
          split
          · next isSlash =>
              rw [isSlash, components_slash]
              exact inductionHypothesis rest unused below stored reserved
                (Nat.lt_of_succ_lt_succ enough)
          · next differs =>
              have opened := openOn_withHandle stored reserved
              have copied : OpenOn { fs with
                  copies := nameCopy (component (byte :: rest)) :: fs.copies }
                  fh gname node := ⟨opened.handle, opened.node⟩
              have single : [component (byte :: rest)] <+:
                  component (byte :: rest) ::
                    components (afterComponent (byte :: rest)) :=
                List.prefix_append _ _
              rw [components_cons differs, ensures_bind, copyName, ensures_bind,
                ensures_get, ensures_set]
              refine (copied.returns_findInsertOffset _).bind ?_
              rintro found next ⟨same, copies⟩
              rw [ensures_run_bind
                (run_close_opened unused (same.trans reserved))]
              cases found with
              | free offset =>
                  exact ensures_pure.mpr ⟨⟨rfl, rfl⟩, _, single, copies⟩
              | corrupt =>
                  exact ensures_pure.mpr ⟨⟨rfl, rfl⟩, _, single, copies⟩
              | fileExists offset ent =>
                  refine (ensures_gdpfsFileOpenType env _ _ _).bind ?_
                  rintro result after ⟨opens, kept⟩
                  rw [copies] at kept
                  cases result with
                  | error stat =>
                      exact ensures_pure.mpr ⟨opens.reserves, _, single, kept⟩
                  | ok fh' =>
                      obtain ⟨unused', below', ⟨node', stored', _⟩,
                        reserved'⟩ := opens
                      refine (inductionHypothesis _ unused' below' stored'
                        reserved' ?_).mono ?_
                      · have most := length_afterComponent rest
                        rw [afterComponent_cons differs]
                        rw [List.length_cons] at enough
                        omega
                      · rintro result last ⟨reserves, names, early, more⟩
                        refine ⟨reserves, component (byte :: rest) :: names,
                          List.prefix_cons_inj _ |>.mpr early, ?_⟩
                        rw [more, kept, List.map_cons, List.reverse_cons,
                          List.append_assoc, List.singleton_append]

/-- `gdpfs_dir_open_file_at_path` leaves one handle more, or none. -/
theorem returns_gdpfsDirOpenFileAtPath
    (path : List UInt8)
    (type : FileType) :
    Ensures (gdpfsDirOpenFileAtPath env path type)
      (fun result next => Reserves fs.store next.store result ∧
        ∃ names, names <+: components path ∧
          next.copies = (names.map nameCopy).reverse ++ fs.copies) fs := by
  rw [gdpfsDirOpenFileAtPath]
  split
  · exact ensures_pure.mpr ⟨⟨rfl, rfl⟩, [], List.nil_prefix, rfl⟩
  · refine (ensures_gdpfsFileOpenType env fs _ _).bind ?_
    rintro result next ⟨opens, copies⟩
    rw [← copies]
    cases result with
    | error stat =>
        exact ensures_pure.mpr ⟨opens.reserves, [], List.nil_prefix, rfl⟩
    | ok fh =>
        obtain ⟨unused, below, ⟨node, stored, _⟩, reserved⟩ := opens
        exact returns_walkLoop type path unused below stored reserved
          (Nat.lt_succ_self _)

theorem allows_gdpfsDirOpenFileAtPath
    (path : List UInt8)
    (type : FileType) :
    Allows (gdpfsDirOpenFileAtPath env path type)
      (fun result next => Reserves fs.store next.store result) fs :=
  (returns_gdpfsDirOpenFileAtPath path type).allows.mono
    fun _ _ returned => returned.1

/-- The store after an attempt to open the parent of a file. -/
def ReservesParent (store next : Store) (filepath : List UInt8) :
    Except Stat (Nat × List UInt8) → Prop
  | .ok (fh, name) => Reserves store next (.ok fh) ∧ name = basename filepath
  | .error stat => Reserves store next (.error stat)

theorem allows_openParentDir
    (filepath : List UInt8) :
    Allows (openParentDir env filepath)
      (fun result next => ReservesParent fs.store next.store filepath result)
      fs := by
  rw [openParentDir]
  split
  · exact allows_pure.mpr ⟨rfl, rfl⟩
  · rw [allows_run_bind (run_succeeds .memory)]
    split
    · exact allows_pure.mpr ⟨rfl, rfl⟩
    · refine (allows_gdpfsDirOpenFileAtPath _ _).bind ?_
      rintro result next reserves
      cases result with
      | error stat => exact allows_pure.mpr reserves
      | ok fh => exact allows_pure.mpr ⟨reserves, rfl⟩

end Frame

end Dir
end Gdpfs
