import Gdpfs.Dir.Ops

/-!
# Scans of a directory

`_find_insert_offset` and `gdpfs_dir_read` go through the slots of a directory
file.  If reads succeed, they find what a scan of the list of slots finds.
-/

namespace Gdpfs
namespace Dir

open Log File Effect

/-- A handle is open on a file. -/
structure OpenOn (fs : Fs) (fh : Nat) (gname : GdpName) (node : Node) :
    Prop where
  handle : fs.store.fhs fh = some gname
  node : fs.store.nodes gname = some node

/-- The state after some calls that changed nothing. -/
def Fs.later (fs : Fs) (calls : Nat) : Fs :=
  { fs with tick := fs.tick + calls }

section Primitives

variable {env : DirEnv} {fs : Fs} {fh : Nat} {gname : GdpName} {node : Node}

theorem OpenOn.later
    (opened : OpenOn fs fh gname node)
    (calls : Nat) :
    OpenOn (fs.later calls) fh gname node :=
  ⟨opened.handle, opened.node⟩

theorem OpenOn.congr
    {next : Fs}
    (opened : OpenOn fs fh gname node)
    (same : next.store = fs.store) :
    OpenOn next fh gname node :=
  ⟨same ▸ opened.handle, same ▸ opened.node⟩

theorem run_succeeds (call : Call) :
    (succeeds env call).run fs = .ok (env.chance call fs.tick, fs.later 1) :=
  rfl

theorem OpenOn.run_lookupFh
    (opened : OpenOn fs fh gname node) :
    (lookupFh fh).run fs = .ok (gname, fs) := by
  rw [lookupFh, run_get_bind, opened.handle]
  rfl

theorem OpenOn.run_fileOf
    (opened : OpenOn fs fh gname node) :
    (fileOf fh).run fs = .ok ((gname, node), fs) := by
  rw [fileOf, run_bind_of_run opened.run_lookupFh, run_get_bind, opened.node]
  rfl

theorem OpenOn.run_gdpfsFileRead
    (opened : OpenOn fs fh gname node)
    (reads : ∀ tick, env.chance .read tick = true)
    (size offset : Nat) :
    (gdpfsFileRead env fh size offset).run fs =
      .ok ((node.contents.drop offset).take size, fs.later 1) := by
  rw [gdpfsFileRead, run_bind_of_run opened.run_fileOf]
  dsimp only
  rw [run_bind_of_run (run_succeeds .read), reads, if_pos rfl]
  rfl

theorem OpenOn.run_roundsFor
    (opened : OpenOn fs fh gname node) :
    (roundsFor fh).run fs = .ok (node.contents.length + 1, fs) := by
  rw [roundsFor, run_bind_of_run opened.run_fileOf]
  rfl

end Primitives

/-! ## Blocks and slots -/

theorem slotAt_eq_getElem
    {contents : List UInt8}
    (slot : (slots contents)[index]? = some ent) :
    ((contents.drop (physSize * index)).take physSize).length = physSize ∧
      PhysEnt.ofBytes ((contents.drop (physSize * index)).take physSize) =
        ent := by
  rw [getElem?_slots] at slot
  split at slot
  · next below =>
      refine ⟨?_, Option.some.inj slot⟩
      rw [List.length_take, List.length_drop]
      rw [physSize] at below ⊢
      omega
  · cases slot

/-- The length of the block behind the last slot. -/
theorem length_block_end
    (contents : List UInt8) :
    ((contents.drop (physSize * (contents.length / physSize))).take
      physSize).length = contents.length % physSize := by
  rw [List.length_take, List.length_drop, physSize]
  omega

theorem slot_of_remaining
    {contents : List UInt8}
    (remaining : (slots contents).drop index = ent :: rest) :
    (slots contents)[index]? = some ent ∧
      (slots contents).drop (index + 1) = rest ∧
      index + 1 ≤ contents.length / physSize := by
  refine ⟨?_, ?_, ?_⟩
  · rw [← Nat.add_zero index, ← List.getElem?_drop, remaining]
    rfl
  · rw [← List.drop_drop, remaining]
    rfl
  · have length := congrArg List.length remaining
    rw [List.length_drop, length_slots, List.length_cons] at length
    omega

/-! ## Finding -/

/-- A scan of slots from an offset on; `whole` says that nothing follows the last
slot. -/
def scan (name : List UInt8) (whole : Bool) :
    Nat → Option Nat → List PhysEnt → Found
  | offset, insertOffset, [] =>
      if whole then .free (insertOffset.getD offset) else .corrupt
  | offset, insertOffset, ent :: rest =>
      if ent.inUse then
        if ent.text = cstr name then .fileExists offset ent
        else scan name whole (offset + physSize) insertOffset rest
      else
        scan name whole (offset + physSize) (insertOffset.or (some offset))
          rest

/-- What is found in a directory file. -/
def findIn (contents : List UInt8) (name : List UInt8) : Found :=
  scan name (contents.length % physSize = 0) 0 none (slots contents)

/-- Whether an entry is free. -/
def PhysEnt.isFree (ent : PhysEnt) : Bool := !ent.inUse

/-- What a scan hands back: the first entry with the name, or the first free
slot. -/
def ScanOf (name : List UInt8) (whole : Bool) (offset : Nat)
    (insertOffset : Option Nat) (table : List PhysEnt) (found : Found) : Prop :=
  (∃ before ent after, table = before ++ ent :: after ∧
    ent.isNamed name = true ∧
    (∀ other ∈ before, other.isNamed name = false) ∧
    found = .fileExists (offset + physSize * before.length) ent) ∨
  ((∀ other ∈ table, other.isNamed name = false) ∧
    found =
      if whole then
        .free (insertOffset.getD
          (offset + physSize * table.findIdx PhysEnt.isFree))
      else .corrupt)

/-- A scan goes on behind an entry with another name. -/
theorem ScanOf.cons
    {name : List UInt8}
    {insertOffset later : Option Nat}
    (rest : ScanOf name whole (offset + physSize) later table found)
    (unnamed : first.isNamed name = false)
    (insert : later.getD
        (offset + physSize + physSize * table.findIdx PhysEnt.isFree) =
      insertOffset.getD
        (offset + physSize * (first :: table).findIdx PhysEnt.isFree)) :
    ScanOf name whole offset insertOffset (first :: table) found := by
  rcases rest with ⟨before, ent, after, split, named, others, result⟩ |
    ⟨others, result⟩
  · refine Or.inl ⟨first :: before, ent, after, ?_, named, ?_, ?_⟩
    · rw [split, List.cons_append]
    · exact List.forall_mem_cons.mpr ⟨unnamed, others⟩
    · rw [result, List.length_cons, Nat.mul_succ]
      congr 1
      omega
  · refine Or.inr ⟨List.forall_mem_cons.mpr ⟨unnamed, others⟩, ?_⟩
    rw [result, insert]

theorem scanOf_scan
    (name : List UInt8)
    (whole : Bool)
    (table : List PhysEnt)
    (offset : Nat)
    (insertOffset : Option Nat) :
    ScanOf name whole offset insertOffset table
      (scan name whole offset insertOffset table) := by
  induction table generalizing offset insertOffset with
  | nil =>
      refine Or.inr ⟨fun other impossible => ?_, ?_⟩
      · exact absurd impossible List.not_mem_nil
      · rw [scan, List.findIdx_nil, Nat.mul_zero, Nat.add_zero]
  | cons first rest inductionHypothesis =>
      rw [scan]
      by_cases used : first.inUse = true
      · rw [if_pos used]
        have notFree : PhysEnt.isFree first = false := by
          rw [PhysEnt.isFree, used, Bool.not_true]
        by_cases same : first.text = cstr name
        · rw [if_pos same]
          refine Or.inl ⟨[], first, rest, rfl, ?_, ?_, rfl⟩
          · rw [PhysEnt.isNamed, used, same, Bool.true_and, beq_self_eq_true]
          · exact fun other impossible => absurd impossible List.not_mem_nil
        · rw [if_neg same]
          refine (inductionHypothesis _ _).cons ?_ ?_
          · rw [PhysEnt.isNamed, used, Bool.true_and, beq_eq_false_iff_ne]
            exact same
          · rw [List.findIdx_cons, notFree, cond_false, Nat.mul_succ]
            congr 1
            omega
      · rw [if_neg used]
        rw [Bool.not_eq_true] at used
        refine (inductionHypothesis _ _).cons ?_ ?_
        · rw [PhysEnt.isNamed, used, Bool.false_and]
        · rw [List.findIdx_cons, PhysEnt.isFree, used, Bool.not_false,
            cond_true, Nat.mul_zero, Nat.add_zero]
          cases insertOffset with
          | none => rfl
          | some earlier => rfl

section Find

variable {env : DirEnv} {fs : Fs} {fh : Nat} {gname : GdpName} {node : Node}
  {name : List UInt8}

theorem ensures_findLoop
    (reads : ∀ tick, env.chance .read tick = true)
    (rest : List PhysEnt)
    (opened : OpenOn fs fh gname node)
    (remaining : (slots node.contents).drop index = rest)
    (within : index ≤ node.contents.length / physSize)
    (insertOffset : Option Nat)
    (enough : rest.length < rounds) :
    Ensures (findLoop env fh name rounds (physSize * index) insertOffset)
      (fun found next =>
        found = scan name (node.contents.length % physSize = 0)
          (physSize * index) insertOffset rest ∧
        next.store = fs.store ∧ next.copies = fs.copies) fs := by
  induction rest generalizing fs index rounds insertOffset with
  | nil =>
      obtain ⟨rounds, rfl⟩ := Nat.exists_eq_succ_of_ne_zero
        (Nat.ne_of_gt enough)
      have last : index = node.contents.length / physSize := by
        have length := congrArg List.length remaining
        rw [List.length_drop, length_slots, List.length_nil] at length
        omega
      rw [findLoop, ensures_run_bind (opened.run_gdpfsFileRead reads _ _), last,
        length_block_end]
      by_cases whole : node.contents.length % physSize = 0
      · rw [if_pos whole]
        exact ensures_pure.mpr ⟨by rw [scan, decide_eq_true whole]; rfl,
          rfl, rfl⟩
      · rw [if_neg whole, if_pos]
        · exact ensures_pure.mpr ⟨by rw [scan, decide_eq_false whole]; rfl,
            rfl, rfl⟩
        · exact Nat.ne_of_lt (Nat.mod_lt _ (by decide))
  | cons ent rest inductionHypothesis =>
      obtain ⟨rounds, rfl⟩ := Nat.exists_eq_succ_of_ne_zero
        (Nat.ne_of_gt (Nat.lt_of_le_of_lt (Nat.zero_le _) enough))
      obtain ⟨slot, behind, more⟩ := slot_of_remaining remaining
      obtain ⟨length, decoded⟩ := slotAt_eq_getElem slot
      have go := fun insertOffset => inductionHypothesis (opened.later 1) behind
        more insertOffset (Nat.lt_of_succ_lt_succ enough)
      rw [findLoop, ensures_run_bind (opened.run_gdpfsFileRead reads _ _),
        length, if_neg (by decide), if_neg (fun differ => differ rfl)]
      dsimp only
      rw [decoded, scan]
      by_cases used : ent.inUse = true
      · rw [if_pos used, if_pos used]
        by_cases same : ent.text = cstr name
        · rw [if_pos same, if_pos same]
          exact ensures_pure.mpr ⟨rfl, rfl, rfl⟩
        · rw [if_neg same, if_neg same]
          exact go insertOffset
      · rw [if_neg used, if_neg used]
        exact go _

/-- `_find_insert_offset` finds what a scan of the slots finds. -/
theorem ensures_findInsertOffset
    (reads : ∀ tick, env.chance .read tick = true)
    (opened : OpenOn fs fh gname node)
    (name : List UInt8) :
    Ensures (findInsertOffset env fh name)
      (fun found next => found = findIn node.contents name ∧
        next.store = fs.store ∧ next.copies = fs.copies) fs := by
  rw [findInsertOffset, ensures_run_bind opened.run_roundsFor]
  refine ensures_findLoop reads (slots node.contents) opened rfl
    (Nat.zero_le _) none ?_
  rw [length_slots]
  exact Nat.lt_succ_of_le (Nat.div_le_self _ _)

end Find

/-- The two results of a search in a directory file. -/
theorem scanOf_findIn (contents name : List UInt8) :
    ScanOf name (contents.length % physSize = 0) 0 none (slots contents)
      (findIn contents name) :=
  scanOf_scan _ _ _ _ _

/-! ## Reading entries -/

/-- The next entry in use among slots from an offset on. -/
def nextIn (whole : Bool) : Nat → List PhysEnt → DirRead
  | _, [] => if whole then .eof else .corrupt
  | offset, ent :: rest =>
      if ent.inUse then .ok ent.text (offset + physSize)
      else nextIn whole (offset + physSize) rest

/-- The copies that `gdpfs_dir_read` makes. -/
def DirRead.copies : DirRead → List Copy
  | .ok _ _ => [⟨nameMaxGdpfs, nameMaxGdpfs + 1⟩]
  | _ => []

/-- What `gdpfs_dir_isempty` returns for what it read. -/
def DirRead.isempty : DirRead → Except Stat Bool
  | .corrupt => .error .corrupt
  | .eof => .ok true
  | .ok _ _ => .ok false

section Read

variable {env : DirEnv} {fs : Fs} {fh : Nat} {gname : GdpName} {node : Node}

theorem ensures_dirReadLoop
    (reads : ∀ tick, env.chance .read tick = true)
    (start : Nat)
    (rest : List PhysEnt)
    (opened : OpenOn fs fh gname node)
    (remaining : (slots (node.contents.drop start)).drop index = rest)
    (within : index ≤ (node.contents.drop start).length / physSize)
    (enough : rest.length < rounds) :
    Ensures (dirReadLoop env fh rounds (start + physSize * index))
      (fun read next =>
        read = nextIn ((node.contents.drop start).length % physSize = 0)
          (start + physSize * index) rest ∧
        next.store = fs.store ∧
        next.copies = read.copies ++ fs.copies) fs := by
  induction rest generalizing fs index rounds with
  | nil =>
      obtain ⟨rounds, rfl⟩ := Nat.exists_eq_succ_of_ne_zero
        (Nat.ne_of_gt enough)
      have last : index = (node.contents.drop start).length / physSize := by
        have length := congrArg List.length remaining
        rw [List.length_drop, length_slots, List.length_nil] at length
        omega
      rw [dirReadLoop, ensures_run_bind (opened.run_gdpfsFileRead reads _ _),
        ← List.drop_drop, last, length_block_end]
      by_cases whole : (node.contents.drop start).length % physSize = 0
      · rw [if_pos whole]
        exact ensures_pure.mpr ⟨by rw [nextIn, decide_eq_true whole]; rfl,
          rfl, rfl⟩
      · rw [if_neg whole, if_pos]
        · exact ensures_pure.mpr ⟨by rw [nextIn, decide_eq_false whole]; rfl,
            rfl, rfl⟩
        · exact Nat.ne_of_lt (Nat.mod_lt _ (by decide))
  | cons ent rest inductionHypothesis =>
      obtain ⟨rounds, rfl⟩ := Nat.exists_eq_succ_of_ne_zero
        (Nat.ne_of_gt (Nat.lt_of_le_of_lt (Nat.zero_le _) enough))
      obtain ⟨slot, behind, more⟩ := slot_of_remaining remaining
      obtain ⟨length, decoded⟩ := slotAt_eq_getElem slot
      rw [dirReadLoop, ensures_run_bind (opened.run_gdpfsFileRead reads _ _),
        ← List.drop_drop, length, if_neg (by decide),
        if_neg (fun differ => differ rfl)]
      dsimp only
      rw [decoded, nextIn]
      by_cases used : ent.inUse = true
      · rw [if_pos used, if_pos used]
        exact ⟨_, _, rfl, rfl, rfl, rfl⟩
      · rw [if_neg used, if_neg used, Nat.add_assoc, ← Nat.mul_succ]
        exact inductionHypothesis (opened.later 1) behind more
          (Nat.lt_of_succ_lt_succ enough)

/-- `gdpfs_dir_read` finds the next entry in use from an offset on. -/
theorem ensures_gdpfsDirRead
    (reads : ∀ tick, env.chance .read tick = true)
    (opened : OpenOn fs fh gname node)
    (offset : Nat) :
    Ensures (gdpfsDirRead env fh offset)
      (fun read next =>
        read = nextIn ((node.contents.drop offset).length % physSize = 0) offset
          (slots (node.contents.drop offset)) ∧
        next.store = fs.store ∧
        next.copies = read.copies ++ fs.copies) fs := by
  rw [gdpfsDirRead, ensures_run_bind opened.run_roundsFor]
  refine ensures_dirReadLoop reads offset _ opened rfl (Nat.zero_le _) ?_
  rw [List.drop_zero, length_slots, List.length_drop]
  exact Nat.lt_succ_of_le (Nat.le_trans (Nat.div_le_self _ _) (Nat.sub_le _ _))

/-- The first entry of a directory file. -/
def firstIn (contents : List UInt8) : DirRead :=
  nextIn (contents.length % physSize = 0) 0 (slots contents)

/-- `gdpfs_dir_isempty` looks for the first entry. -/
theorem ensures_gdpfsDirIsempty
    (reads : ∀ tick, env.chance .read tick = true)
    (opened : OpenOn fs fh gname node) :
    Ensures (gdpfsDirIsempty env fh)
      (fun isempty next => isempty = (firstIn node.contents).isempty ∧
        next.store = fs.store ∧
        next.copies = (firstIn node.contents).copies ++ fs.copies) fs := by
  rw [gdpfsDirIsempty]
  refine (ensures_gdpfsDirRead reads opened 0).bind ?_
  rintro read next ⟨isFirst, store, copies⟩
  have same : read = firstIn node.contents := by
    rw [isFirst, List.drop_zero, firstIn]
  rw [← same]
  cases read with
  | ok name offset => exact ensures_pure.mpr ⟨rfl, store, copies⟩
  | eof => exact ensures_pure.mpr ⟨rfl, store, copies⟩
  | corrupt => exact ensures_pure.mpr ⟨rfl, store, copies⟩

end Read

theorem nextIn_eof
    {whole : Bool}
    {table : List PhysEnt} :
    nextIn whole offset table = .eof ↔
      whole = true ∧ ∀ ent ∈ table, ent.inUse = false := by
  induction table generalizing offset with
  | nil =>
      cases whole with
      | false => exact iff_of_false (by rintro ⟨⟩) (by rintro ⟨⟨⟩, _⟩)
      | true =>
          exact iff_of_true rfl
            ⟨rfl, fun _ impossible => absurd impossible List.not_mem_nil⟩
  | cons first rest inductionHypothesis =>
      rw [nextIn, List.forall_mem_cons]
      cases first.inUse with
      | true =>
          rw [if_pos rfl]
          exact iff_of_false (by rintro ⟨⟩) (by rintro ⟨_, ⟨⟩, _⟩)
      | false =>
          rw [if_neg Bool.false_ne_true, inductionHypothesis]
          constructor
          · rintro ⟨isWhole, free⟩
            exact ⟨isWhole, rfl, free⟩
          · rintro ⟨isWhole, _, free⟩
            exact ⟨isWhole, free⟩

/-- A directory file without entries in use. -/
theorem firstIn_eof
    {contents : List UInt8} :
    firstIn contents = .eof ↔
      contents.length % physSize = 0 ∧
        ∀ ent ∈ slots contents, ent.inUse = false := by
  rw [firstIn, nextIn_eof, decide_eq_true_iff]

end Dir
end Gdpfs
