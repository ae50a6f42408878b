import Gdpfs.Dir.Balance

/-!
# Resolution of paths

A path is resolved by looking up its components one after the other, from the
root on.
-/

namespace Gdpfs
namespace Dir

open Log File Effect

/-- The first entry in use with a name is that of a file. -/
def Holds (contents name : List UInt8) (gname : GdpName) : Prop :=
  ∃ before ent after, slots contents = before ++ ent :: after ∧
    ent.isNamed name = true ∧
    (∀ other ∈ before, other.isNamed name = false) ∧ ent.gname = gname

/-- The file of a name in a directory. -/
def LooksUp (store : Store) (dir : GdpName) (name : List UInt8)
    (gname : GdpName) : Prop :=
  ∃ node, store.nodes dir = some node ∧ Holds node.contents name gname

/-- A file exists and has a type; any file has the unknown type. -/
def OfType (store : Store) (gname : GdpName) (type : FileType) : Prop :=
  ∃ node, store.nodes gname = some node ∧
    (type = .unknown ∨ node.fileType = type)

/-- Names lead from a directory to a file of a type, through directories. -/
inductive Leads (store : Store) (type : FileType) :
    GdpName → List (List UInt8) → GdpName → Prop
  | last
      (looksUp : LooksUp store dir name gname)
      (typed : OfType store gname type) :
      Leads store type dir [name] gname
  | through
      (looksUp : LooksUp store dir name middle)
      (typed : OfType store middle .dir)
      (leads : Leads store type middle (next :: rest) gname) :
      Leads store type dir (name :: next :: rest) gname

section Leads

variable {store : Store} {dir gname : GdpName} {type : FileType}

theorem holds_iff
    (contents name : List UInt8)
    (gname : GdpName) :
    Holds contents name gname ↔
      (findIn contents name).file = some gname := by
  have unheld : ¬InUse contents name → ¬Holds contents name gname := by
    rintro absent ⟨before, ent, after, split, named, _⟩
    refine absent ⟨ent, ?_, named⟩
    rw [split]
    exact List.mem_append_right _ List.mem_cons_self
  rcases findIn_cases contents name with
    ⟨before, ent, after, split, named, others, found⟩ | ⟨absent, _, found⟩ |
    ⟨absent, _, found⟩
  · rw [found]
    constructor
    · rintro ⟨before', ent', after', split', named', others', rfl⟩
      have first : (slots contents).find? (PhysEnt.isNamed name) = some ent := by
        rw [split]
        refine List.find?_eq_some_iff_append.mpr
          ⟨named, before, after, rfl, ?_⟩
        intro other member
        rw [others other member, Bool.not_false]
      have first' : (slots contents).find? (PhysEnt.isNamed name) =
          some ent' := by
        rw [split']
        refine List.find?_eq_some_iff_append.mpr
          ⟨named', before', after', rfl, ?_⟩
        intro other member
        rw [others' other member, Bool.not_false]
      rw [first] at first'
      cases first'
      rfl
    · intro isFile
      exact ⟨before, ent, after, split, named, others, Option.some.inj isFile⟩
  · rw [found]
    exact iff_of_false (unheld absent) (by rintro ⟨⟩)
  · rw [found]
    exact iff_of_false (unheld absent) (by rintro ⟨⟩)

theorem looksUp_iff
    (name : List UInt8) :
    LooksUp store dir name gname ↔ entryOf store dir name = some gname := by
  rw [LooksUp, entryOf]
  cases store.nodes dir with
  | none =>
      refine iff_of_false ?_ (by rintro ⟨⟩)
      rintro ⟨node, stored, _⟩
      cases stored
  | some node =>
      rw [← holds_iff]
      constructor
      · rintro ⟨_, ⟨⟩, holds⟩
        exact holds
      · exact fun holds => ⟨node, rfl, holds⟩

theorem ofType_iff :
    OfType store gname type ↔ hasType store gname type = true := by
  rw [OfType, hasType]
  cases store.nodes gname with
  | none =>
      refine iff_of_false ?_ Bool.false_ne_true
      rintro ⟨node, stored, _⟩
      cases stored
  | some node =>
      rw [Bool.or_eq_true, decide_eq_true_iff, decide_eq_true_iff]
      constructor
      · rintro ⟨_, ⟨⟩, typed⟩
        exact typed
      · exact fun typed => ⟨node, rfl, typed⟩

/-- A walk ends where the names lead. -/
theorem leads_iff_walkTo
    (names : List (List UInt8))
    (nonempty : names ≠ []) :
    Leads store type dir names gname ↔
      walkTo store type dir names = some gname := by
  induction names generalizing dir with
  | nil => exact absurd rfl nonempty
  | cons name rest inductionHypothesis =>
      cases found : entryOf store dir name with
      | none =>
          rw [walkTo_cons_none found]
          refine iff_of_false ?_ (by rintro ⟨⟩)
          intro leads
          cases leads with
          | last looksUp _ =>
              rw [looksUp_iff, found] at looksUp
              cases looksUp
          | through looksUp _ _ =>
              rw [looksUp_iff, found] at looksUp
              cases looksUp
      | some middle =>
          rw [walkTo_cons found]
          cases rest with
          | nil =>
              change _ ↔ (if hasType store middle type = true then _ else _) = _
              rw [walkTo]
              constructor
              · intro leads
                cases leads with
                | last looksUp typed =>
                    rw [looksUp_iff, found] at looksUp
                    cases looksUp
                    rw [if_pos (ofType_iff.mp typed)]
              · intro isTarget
                split at isTarget
                · next typed =>
                    cases isTarget
                    exact .last ((looksUp_iff name).mpr found)
                      (ofType_iff.mpr typed)
                · cases isTarget
          | cons next more =>
              change _ ↔ (if hasType store middle .dir = true then _ else _) = _
              have later := @inductionHypothesis middle
                (List.cons_ne_nil next more)
              constructor
              · intro leads
                cases leads with
                | through looksUp typed leads =>
                    rw [looksUp_iff, found] at looksUp
                    cases looksUp
                    rw [if_pos (ofType_iff.mp typed), ← later]
                    exact leads
              · intro isTarget
                split at isTarget
                · next typed =>
                    rw [← later] at isTarget
                    exact .through ((looksUp_iff name).mpr found)
                      (ofType_iff.mpr typed) isTarget
                · cases isTarget

end Leads

/-- One handle more is reserved. -/
theorem reservedHandles_withHandle
    {store : Store}
    (unused : store.fhs fh = none)
    (below : fh < maxFhs)
    (gname : GdpName) :
    reservedHandles (store.withHandle fh gname) = reservedHandles store + 1 := by
  have reserved : (store.withHandle fh gname).fhs fh = some gname :=
    Function.update_self _ _ _
  rw [reservedHandles, reservedHandles, List.countP_eq_length_filter,
    List.countP_eq_length_filter]
  change _ = (fh :: (List.range maxFhs).filter
    fun other => (store.fhs other).isSome).length
  refine List.Perm.length_eq ?_
  have distinct : (fh :: (List.range maxFhs).filter
      fun other => (store.fhs other).isSome).Nodup := by
    refine List.nodup_cons.mpr ⟨?_, List.nodup_range.filter _⟩
    intro member
    have isSome := (List.mem_filter.mp member).2
    rw [unused] at isSome
    cases isSome
  refine (List.perm_ext_iff_of_nodup (List.nodup_range.filter _)
    distinct).mpr ?_
  intro other
  rw [List.mem_cons, List.mem_filter, List.mem_filter]
  by_cases same : other = fh
  · rw [same, reserved]
    exact iff_of_true ⟨List.mem_range.mpr below, rfl⟩ (Or.inl rfl)
  · have kept : (store.withHandle fh gname).fhs other = store.fhs other :=
      Function.update_of_ne same _ _
    rw [kept, or_iff_right same]

/-- `gdpfs_dir_open_file_at_path` succeeds exactly if the components of the path
lead from the root to a file of the type.  Then it returns one handle, on that
file, and otherwise it leaves the handles as they were. -/
theorem path_resolution_is_fold
    (smooth : Smooth env)
    (spare : fs.store.nextFree ≠ none)
    (root : hasType fs.store env.rootLogGname .dir = true)
    (nonempty : components rest ≠ [])
    (short : ∀ name ∈ components rest, name.length ≤ nameMaxGdpfs)
    (noSlash : (slash :: rest).getLast? ≠ some slash)
    (type : FileType) :
    Ensures (gdpfsDirOpenFileAtPath env (slash :: rest) type)
      (fun result next =>
        ((∃ fh, result = .ok fh) ↔ ∃ gname, Leads fs.store type
          env.rootLogGname (components rest) gname) ∧
        (∀ fh, result = .ok fh → ∃ gname,
          Leads fs.store type env.rootLogGname (components rest) gname ∧
          fs.store.fhs fh = none ∧
          next.store = fs.store.withHandle fh gname ∧
          reservedHandles next.store = reservedHandles fs.store + 1) ∧
        (∀ stat, result = .error stat → next.store = fs.store) ∧
        CopiesStay fs next) fs := by
  have stays : OpenStays env fs (slash :: rest) type := by
    refine openStays_of_short type ?_
    rw [components_slash]
    exact short
  refine ((ensures_gdpfsDirOpenFileAtPath smooth spare root rest type).and
    stays.allows).mono ?_
  rintro result next ⟨⟨arrives, _⟩, inside⟩
  have final : finalType (slash :: rest) type = type := if_neg noSlash
  have leads : ∀ gname, Leads fs.store type env.rootLogGname (components rest)
      gname ↔ walkTo fs.store type env.rootLogGname (components rest) =
        some gname := fun _ => leads_iff_walkTo (components rest) nonempty
  rw [final] at arrives
  cases target : walkTo fs.store type env.rootLogGname (components rest) with
  | none =>
      rw [target] at arrives leads
      obtain ⟨stat, rfl, _, same⟩ := arrives
      refine ⟨iff_of_false ?_ ?_, ?_, fun _ _ => same, inside⟩
      · rintro ⟨fh, ⟨⟩⟩
      · rintro ⟨gname, isLed⟩
        cases (leads gname).mp isLed
      · rintro fh ⟨⟩
  | some gname =>
      rw [target] at arrives leads
      obtain ⟨fh, rfl, unused, below, reserved⟩ := arrives
      have isLed := (leads gname).mpr rfl
      refine ⟨iff_of_true ⟨fh, rfl⟩ ⟨gname, isLed⟩, ?_, ?_, inside⟩
      · rintro _ ⟨⟩
        refine ⟨gname, isLed, unused, reserved, ?_⟩
        rw [reserved, reservedHandles_withHandle unused below]
      · rintro stat ⟨⟩

/-- A file system with a directory `d` in its root, and a file `a` in that. -/
def nestedFile : Fs :=
  { Fs.initial DirEnv.calm with
    store := (((Fs.initial DirEnv.calm).store.setNode (DirEnv.calm.newNames 1)
      ⟨.regular, 0o644, []⟩).setNode (DirEnv.calm.newNames 0)
      ⟨.dir, 0o755, (PhysEnt.named [97] (DirEnv.calm.newNames 1)).bytes⟩).setNode
      DirEnv.calm.rootLogGname
      ⟨.dir, rootDefaultPerm,
        (PhysEnt.named [100] (DirEnv.calm.newNames 0)).bytes⟩ }

/-- The file is opened through the directory, also with more slashes. -/
theorem path_resolution_is_fold_slashes :
    Ensures (gdpfsDirOpenFileAtPath DirEnv.calm
        [slash, slash, 100, slash, slash, 97] .regular)
      (fun result next => (∃ fh, result = .ok fh) ∧
        reservedHandles next.store = reservedHandles nestedFile.store + 1)
      nestedFile := by
  have unused : nestedFile.store.fhs 0 = none := rfl
  have leads : Leads nestedFile.store .regular DirEnv.calm.rootLogGname
      [[100], [97]] (DirEnv.calm.newNames 1) := by
    rw [leads_iff_walkTo _ (List.cons_ne_nil _ _)]
    decide +kernel
  refine (path_resolution_is_fold smooth_calm
    (nextFree_ne_none unused (by decide)) (by decide) (by decide) (by decide)
    (by decide) .regular).mono ?_
  rintro result next ⟨succeeds, handle, _, _⟩
  obtain ⟨fh, opened⟩ := succeeds.mpr ⟨_, leads⟩
  obtain ⟨_, _, _, _, more⟩ := handle fh opened
  exact ⟨⟨fh, opened⟩, more⟩

end Dir
end Gdpfs
