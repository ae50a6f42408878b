import Gdpfs.Dir.Changes
import Gdpfs.Store.Resume

/-!
# Listings of a directory

`gdpfs_readdir` hands the entries of a directory to FUSE, each with the offset
behind it, until FUSE refuses one or there are no more.  FUSE goes on at the
offset of the last entry that it took.  Offsets are moved by three: 1 and 2 stand
for the entries `.` and `..`, which are in no slot.
-/

namespace Gdpfs
namespace Dir

open Log File Effect Resume

/-! ## What there is to list -/

/-- The entries in use among slots from an offset on, with the offsets that
`gdpfs_readdir` records. -/
def entriesFrom : Nat → List PhysEnt → List (List UInt8 × Nat)
  | _, [] => []
  | offset, ent :: rest =>
      if ent.inUse then
        (ent.text, offset + physSize + 3) ::
          entriesFrom (offset + physSize) rest
      else entriesFrom (offset + physSize) rest

/-- All entries of a directory file, `.` and `..` first. -/
def entries (contents : List UInt8) : List (List UInt8 × Nat) :=
  ([46], 2) :: ([46, 46], 3) :: entriesFrom 0 (slots contents)

section Entries

variable {table : List PhysEnt} {offset : Nat}

theorem mem_entriesFrom
    {item : List UInt8 × Nat} :
    item ∈ entriesFrom offset table ↔
      ∃ index ent, table[index]? = some ent ∧ ent.inUse = true ∧
        item = (ent.text, offset + physSize * (index + 1) + 3) := by
  induction table generalizing offset with
  | nil => simp [entriesFrom]
  | cons first rest inductionHypothesis =>
      have shift : ∀ index, offset + physSize + physSize * (index + 1) + 3 =
          offset + physSize * (index + 1 + 1) + 3 := by
        intro index
        rw [physSize]
        omega
      have behindFirst : item ∈ entriesFrom (offset + physSize) rest ↔
          ∃ index ent, (first :: rest)[index + 1]? = some ent ∧
            ent.inUse = true ∧
            item = (ent.text, offset + physSize * (index + 1 + 1) + 3) := by
        rw [inductionHypothesis]
        simp only [List.getElem?_cons_succ, shift]
      rw [entriesFrom]
      constructor
      · intro member
        have later : item ∈ entriesFrom (offset + physSize) rest ∨
            first.inUse = true ∧ item = (first.text, offset + physSize + 3) := by
          split at member
          · next used =>
              rcases List.mem_cons.mp member with here | later
              · exact Or.inr ⟨used, here⟩
              · exact Or.inl later
          · exact Or.inl member
        rcases later with later | ⟨used, here⟩
        · obtain ⟨index, found⟩ := behindFirst.mp later
          exact ⟨index + 1, found⟩
        · exact ⟨0, first, rfl, used, here⟩
      · rintro ⟨index, ent, found, used, isItem⟩
        cases index with
        | zero =>
            cases found
            rw [if_pos used, isItem]
            exact List.mem_cons_self
        | succ index =>
            have later := behindFirst.mpr ⟨index, ent, found, used, isItem⟩
            split
            · exact List.mem_cons_of_mem _ later
            · exact later

theorem increasing_entriesFrom (offset : Nat) (table : List PhysEnt) :
    Increasing Prod.snd (entriesFrom offset table) ∧
      ∀ item ∈ entriesFrom offset table, offset + 3 < item.2 := by
  induction table generalizing offset with
  | nil => exact ⟨List.Pairwise.nil, by simp [entriesFrom]⟩
  | cons first rest inductionHypothesis =>
      obtain ⟨increasing, later⟩ := inductionHypothesis (offset + physSize)
      have behindFirst : ∀ item ∈ entriesFrom (offset + physSize) rest,
          offset + 3 < item.2 := by
        intro item member
        have := later item member
        omega
      rw [entriesFrom]
      split
      · refine ⟨List.pairwise_cons.mpr ⟨later, increasing⟩, ?_⟩
        refine List.forall_mem_cons.mpr ⟨?_, behindFirst⟩
        rw [physSize]
        dsimp only
        omega
      · exact ⟨increasing, behindFirst⟩

theorem increasing_entries (contents : List UInt8) :
    Increasing Prod.snd (entries contents) := by
  obtain ⟨increasing, later⟩ := increasing_entriesFrom 0 (slots contents)
  refine List.pairwise_cons.mpr ⟨?_, List.pairwise_cons.mpr ⟨?_, increasing⟩⟩
  · refine List.forall_mem_cons.mpr ⟨by decide, ?_⟩
    intro item member
    have := later item member
    dsimp only
    omega
  · intro item member
    have := later item member
    dsimp only
    omega

/-- What is behind an offset, seen from an earlier slot. -/
theorem behind_entriesFrom (index : Nat) :
    behind Prod.snd (entriesFrom offset table)
        (offset + physSize * index + 3) =
      entriesFrom (offset + physSize * index) (table.drop index) := by
  induction table generalizing offset index with
  | nil =>
      rw [List.drop_nil]
      rfl
  | cons first rest inductionHypothesis =>
      cases index with
      | zero =>
          refine List.filter_eq_self.mpr fun item member => ?_
          exact decide_eq_true
            ((increasing_entriesFrom offset (first :: rest)).2 item member)
      | succ index =>
          have shift : offset + physSize * (index + 1) =
              offset + physSize + physSize * index := by
            rw [physSize]
            omega
          rw [List.drop_succ_cons, shift, ← inductionHypothesis, entriesFrom]
          split
          · refine List.filter_cons_of_neg ?_
            rw [decide_eq_true_iff]
            dsimp only
            omega
          · rfl

theorem behind_entries_slot (contents : List UInt8) (index : Nat) :
    behind Prod.snd (entries contents) (physSize * index + 3) =
      entriesFrom (physSize * index) ((slots contents).drop index) := by
  have tail := @behind_entriesFrom (slots contents) 0 index
  rw [Nat.zero_add] at tail
  rw [← tail, entries]
  refine (List.filter_cons_of_neg ?_).trans (List.filter_cons_of_neg ?_)
  · rw [decide_eq_true_iff]
    dsimp only
    omega
  · rw [decide_eq_true_iff]
    dsimp only
    omega

theorem behind_entries_two (contents : List UInt8) :
    behind Prod.snd (entries contents) 2 =
      ([46, 46], 3) :: entriesFrom 0 (slots contents) := by
  have later := (increasing_entriesFrom 0 (slots contents)).2
  rw [entries]
  refine (List.filter_cons_of_neg (by decide)).trans
    (List.filter_eq_self.mpr ?_)
  refine List.forall_mem_cons.mpr ⟨by decide, fun item member => ?_⟩
  have := later item member
  exact decide_eq_true (by omega)

theorem behind_entries_zero (contents : List UInt8) :
    behind Prod.snd (entries contents) 0 = entries contents := by
  have later := (increasing_entriesFrom 0 (slots contents)).2
  refine List.filter_eq_self.mpr ?_
  refine List.forall_mem_cons.mpr ⟨by decide,
    List.forall_mem_cons.mpr ⟨by decide, fun item member => ?_⟩⟩
  have := later item member
  exact decide_eq_true (by omega)

/-- `gdpfs_dir_read` finds the first of the entries from an offset on. -/
theorem nextIn_cases (offset : Nat) (table : List PhysEnt) :
    (nextIn true offset table = .eof ∧ entriesFrom offset table = []) ∨
      ∃ index name,
        nextIn true offset table = .ok name (offset + physSize * (index + 1)) ∧
        entriesFrom offset table =
          (name, offset + physSize * (index + 1) + 3) ::
            entriesFrom (offset + physSize * (index + 1))
              (table.drop (index + 1)) := by
  induction table generalizing offset with
  | nil => exact Or.inl ⟨rfl, rfl⟩
  | cons first rest inductionHypothesis =>
      rw [nextIn, entriesFrom]
      by_cases used : first.inUse = true
      · rw [if_pos used, if_pos used]
        exact Or.inr ⟨0, first.text, rfl, rfl⟩
      · rw [if_neg used, if_neg used]
        rcases inductionHypothesis (offset + physSize) with
          ended | ⟨index, name, reads, shape⟩
        · exact Or.inl ended
        · have shift : offset + physSize + physSize * (index + 1) =
              offset + physSize * (index + 1 + 1) := by
            rw [physSize]
            omega
          rw [shift] at reads shape
          exact Or.inr ⟨index + 1, name, reads, shape⟩

/-- The slots of the rest of a file. -/
theorem slots_drop (contents : List UInt8) (index : Nat) :
    slots (contents.drop (physSize * index)) = (slots contents).drop index := by
  apply List.ext_getElem?
  intro other
  have count : (contents.drop (physSize * index)).length / physSize =
      contents.length / physSize - index := by
    rw [List.length_drop, Nat.sub_mul_div]
  rw [List.getElem?_drop, getElem?_slots, getElem?_slots, count]
  have place : slotAt (contents.drop (physSize * index)) (physSize * other) =
      slotAt contents (physSize * (index + other)) := by
    rw [slotAt, slotAt, List.drop_drop, Nat.mul_add]
  rw [place]
  by_cases inside : index + other < contents.length / physSize
  · rw [if_pos inside, if_pos (by omega)]
  · rw [if_neg inside, if_neg (by omega)]

theorem whole_drop
    {contents : List UInt8}
    (whole : contents.length % physSize = 0)
    (index : Nat) :
    (contents.drop (physSize * index)).length % physSize = 0 := by
  rw [List.length_drop]
  rw [physSize] at whole ⊢
  omega

end Entries

/-! ## One call -/

/-- How many entries FUSE takes before it refuses one. -/
def taken (accepts : List Bool) : Nat := (accepts.takeWhile id).length

/-- The offsets at which FUSE calls `gdpfs_readdir`: 0 at first, and then one
that it recorded. -/
def Resumable (offset : Nat) : Prop :=
  offset = 0 ∨ offset = 2 ∨ ∃ index, offset = physSize * index + 3

section Call

variable {env : DirEnv} {fs : Fs} {fh : Nat} {dir : GdpName} {node : Node}

/-- The end of a round of the loop, for an entry that FUSE takes or refuses. -/
theorem ensures_fills
    {rest : DirM (List (List UInt8 × Nat))}
    {items : List (List UInt8 × Nat)}
    {next : Fs}
    (same : next.store = fs.store)
    (accepted : Bool)
    (more : List Bool)
    (item : List UInt8 × Nat)
    (continues : Ensures rest
      (fun delivered last => delivered = items.take (taken more) ∧
        last.store = next.store) next) :
    Ensures (if accepted then do
        let delivered ← rest
        pure (item :: delivered)
      else pure [])
      (fun delivered last =>
        delivered = (item :: items).take (taken (accepted :: more)) ∧
          last.store = fs.store) next := by
  cases accepted with
  | false => exact ensures_pure.mpr ⟨rfl, same⟩
  | true =>
      rw [if_pos rfl]
      refine continues.bind ?_
      rintro _ last ⟨rfl, unchanged⟩
      exact ensures_pure.mpr ⟨rfl, unchanged.trans same⟩

theorem ensures_readdirLoop_slots
    (reads : ∀ tick, env.chance .read tick = true)
    (opened : OpenOn fs fh dir node)
    (whole : node.contents.length % physSize = 0)
    (accepts : List Bool)
    (index : Nat) :
    Ensures (readdirLoop env fh accepts (physSize * index + 3))
      (fun delivered next =>
        delivered = (entriesFrom (physSize * index)
          ((slots node.contents).drop index)).take (taken accepts) ∧
        next.store = fs.store) fs := by
  induction accepts generalizing fs index with
  | nil => exact ensures_pure.mpr ⟨rfl, rfl⟩
  | cons accepted more inductionHypothesis =>
      rw [readdirLoop, if_neg (by omega), if_neg (by omega),
        Nat.add_sub_cancel]
      refine (ensures_gdpfsDirRead reads opened _).bind ?_
      rintro read next ⟨isRead, same, _⟩
      rw [decide_eq_true (whole_drop whole index), slots_drop] at isRead
      rcases nextIn_cases (physSize * index) ((slots node.contents).drop index)
        with ⟨ended, none⟩ | ⟨skipped, name, found, shape⟩
      · rw [isRead, ended, none]
        dsimp only
        rw [pure_bind, List.take_nil]
        exact ensures_pure.mpr ⟨rfl, same⟩
      · rw [isRead, found, shape]
        dsimp only
        rw [pure_bind, ← Nat.mul_add, List.drop_drop]
        exact ensures_fills same accepted more _
          (inductionHypothesis (opened.congr same) _)

theorem ensures_readdirLoop_dotdot
    (reads : ∀ tick, env.chance .read tick = true)
    (opened : OpenOn fs fh dir node)
    (whole : node.contents.length % physSize = 0)
    (accepts : List Bool) :
    Ensures (readdirLoop env fh accepts 2)
      (fun delivered next =>
        delivered = (([46, 46], 3) :: entriesFrom 0 (slots node.contents)).take
          (taken accepts) ∧
        next.store = fs.store) fs := by
  cases accepts with
  | nil => exact ensures_pure.mpr ⟨rfl, rfl⟩
  | cons accepted more =>
      rw [readdirLoop, if_neg (by decide), if_pos rfl, pure_bind]
      exact ensures_fills rfl accepted more _
        (ensures_readdirLoop_slots reads opened whole more 0)

theorem ensures_readdirLoop_dot
    (reads : ∀ tick, env.chance .read tick = true)
    (opened : OpenOn fs fh dir node)
    (whole : node.contents.length % physSize = 0)
    (accepts : List Bool) :
    Ensures (readdirLoop env fh accepts 1)
      (fun delivered next =>
        delivered = (entries node.contents).take (taken accepts) ∧
        next.store = fs.store) fs := by
  cases accepts with
  | nil => exact ensures_pure.mpr ⟨rfl, rfl⟩
  | cons accepted more =>
      rw [readdirLoop, if_pos rfl, pure_bind]
      exact ensures_fills rfl accepted more _
        (ensures_readdirLoop_dotdot reads opened whole more)

/-- A call lists what is behind the offset, as much as FUSE takes. -/
theorem ensures_gdpfsReaddir
    (reads : ∀ tick, env.chance .read tick = true)
    (opened : OpenOn fs fh dir node)
    (whole : node.contents.length % physSize = 0)
    (resumable : Resumable offset)
    (accepts : List Bool) :
    Ensures (gdpfsReaddir env fh offset accepts)
      (fun delivered next =>
        delivered = (behind Prod.snd (entries node.contents) offset).take
          (taken accepts) ∧
        next.store = fs.store) fs := by
  rw [gdpfsReaddir]
  rcases resumable with rfl | rfl | ⟨index, rfl⟩
  · rw [if_pos rfl, behind_entries_zero]
    exact ensures_readdirLoop_dot reads opened whole accepts
  · rw [if_neg (by decide), behind_entries_two]
    exact ensures_readdirLoop_dotdot reads opened whole accepts
  · rw [if_neg (by omega), behind_entries_slot]
    exact ensures_readdirLoop_slots reads opened whole accepts index

end Call

/-! ## Whole listings -/

/-- A listing of a directory under way. -/
structure Listing where
  fs : Fs
  /-- The offset at which FUSE goes on. -/
  offset : Nat
  /-- The entries that FUSE took, with their offsets. -/
  delivered : List (List UInt8 × Nat)
  /-- The contents of the directory since the listing began. -/
  seen : List (List UInt8)

/-- The contents of a file. -/
def contentsOf (fs : Fs) (gname : GdpName) : List UInt8 :=
  ((fs.store.nodes gname).map Node.contents).getD []

/-- A listing before its first call. -/
def Listing.start (fs : Fs) (dir : GdpName) : Listing :=
  ⟨fs, 0, [], [contentsOf fs dir]⟩

/-- What happens during a listing: a call of `gdpfs_readdir`, or an operation
between two calls. -/
inductive ListingStep
  | call (accepts : List Bool)
  | change (op : FuseOp)
  deriving DecidableEq, Repr

/-- Take a step.  The answer says whether a call reached the end of the
directory: it stopped although FUSE would have taken one more entry. -/
def ListingStep.run (env : DirEnv) (fh : Nat) (dir : GdpName) :
    ListingStep → StateT Listing (Except DirFault) Bool
  | .call accepts => do
      let listing ← get
      match (gdpfsReaddir env fh listing.offset accepts).run listing.fs with
      | .ok (delivered, fs) => do
          set { listing with
            fs := fs
            offset := resume Prod.snd delivered listing.offset
            delivered := listing.delivered ++ delivered }
          pure (decide (delivered.length < taken accepts))
      | .error fault => throw fault
  | .change op => do
      let listing ← get
      match (op.run env).run listing.fs with
      | .ok (_, fs) => do
          set { listing with
            fs := fs
            seen := contentsOf fs dir :: listing.seen }
          pure false
      | .error fault => throw fault

/-- The operations between calls create, remove or rename files. -/
def ListingStep.Changes : ListingStep → Listing → Prop
  | .call _, _ => True
  | .change op, _ => op.changesNames = true

instance : (step : ListingStep) → (listing : Listing) →
    Decidable (step.Changes listing)
  | .call _, _ => inferInstanceAs (Decidable True)
  | .change op, _ => inferInstanceAs (Decidable (op.changesNames = true))

/-- The offset that is recorded with the entry in a slot. -/
def slotEnd (index : Nat) : Nat := physSize * (index + 1) + 3

/-- A slot of a directory file is in use. -/
def SlotUsed (contents : List UInt8) (index : Nat) : Prop :=
  ∃ ent, (slots contents)[index]? = some ent ∧ ent.inUse = true

/-- How many entries with an offset were delivered. -/
def Listing.times (listing : Listing) (offset : Nat) : Nat :=
  (listing.delivered.map Prod.snd).count offset

/-- A listing is exact, and if it ended also complete. -/
structure Listing.Exact (listing : Listing) (ended : Bool) : Prop where
  dot : ended = true → ([46], 2) ∈ listing.delivered ∧ listing.times 2 = 1
  dotdot : ended = true →
    ([46, 46], 3) ∈ listing.delivered ∧ listing.times 3 = 1
  used : ended = true → ∀ index,
    (∀ contents ∈ listing.seen, SlotUsed contents index) →
      listing.times (slotEnd index) = 1
  once : ∀ offset, listing.times offset ≤ 1
  free : ∀ index,
    (∀ contents ∈ listing.seen, ¬SlotUsed contents index) →
      listing.times (slotEnd index) = 0
  names : ∀ item ∈ listing.delivered, item = ([46], 2) ∨
    item = ([46, 46], 3) ∨ ∃ contents ∈ listing.seen, ∃ index ent,
      (slots contents)[index]? = some ent ∧ ent.inUse = true ∧
        item = (ent.text, slotEnd index)

/-- What holds between the steps of a listing. -/
structure Listing.Going
    (fh : Nat)
    (dir : GdpName)
    (listing : Listing) : Prop where
  table : ∃ node, OpenOn listing.fs fh dir node ∧
    node.contents.length % physSize = 0 ∧ node.contents ∈ listing.seen
  resumable : Resumable listing.offset
  scanned : Scanned Prod.snd (listing.seen.map entries) listing.delivered
    listing.offset

section Listings

variable {env : DirEnv} {fs : Fs} {fh : Nat} {dir : GdpName} {node : Node}
  {listing : Listing}

theorem mem_entries
    {contents : List UInt8}
    {item : List UInt8 × Nat} :
    item ∈ entries contents ↔ item = ([46], 2) ∨ item = ([46, 46], 3) ∨
      ∃ index ent, (slots contents)[index]? = some ent ∧ ent.inUse = true ∧
        item = (ent.text, slotEnd index) := by
  rw [entries, List.mem_cons, List.mem_cons, mem_entriesFrom]
  simp only [Nat.zero_add, slotEnd]

theorem resumable_entries
    {contents : List UInt8}
    {item : List UInt8 × Nat}
    (member : item ∈ entries contents) :
    0 < item.2 ∧ Resumable item.2 := by
  rcases mem_entries.mp member with rfl | rfl | ⟨index, _, _, _, rfl⟩
  · exact ⟨by decide, Or.inr (Or.inl rfl)⟩
  · exact ⟨by decide, Or.inr (Or.inr ⟨0, rfl⟩)⟩
  · exact ⟨Nat.succ_pos _, Or.inr (Or.inr ⟨index + 1, rfl⟩)⟩

theorem contentsOf_openOn
    (opened : OpenOn fs fh dir node) :
    contentsOf fs dir = node.contents := by
  rw [contentsOf, opened.node]
  rfl

theorem Listing.going_start
    (opened : OpenOn fs fh dir node)
    (whole : node.contents.length % physSize = 0) :
    (Listing.start fs dir).Going fh dir := by
  refine ⟨⟨node, opened, whole, ?_⟩, Or.inl rfl, ?_⟩
  · rw [Listing.start, contentsOf_openOn opened]
    exact List.mem_singleton_self _
  · refine scanned_nil ?_ (by simp [Listing.start])
    intro items isItems item member
    obtain ⟨contents, _, rfl⟩ := List.mem_map.mp isItems
    exact (resumable_entries member).1

theorem resumable_resume
    {contents : List UInt8}
    {portion : List (List UInt8 × Nat)}
    (resumable : Resumable offset)
    (inside : ∀ item ∈ portion, item ∈ entries contents) :
    Resumable (resume Prod.snd portion offset) := by
  rw [resume]
  cases last : portion.getLast? with
  | none => exact resumable
  | some item =>
      exact (resumable_entries (inside item
        (List.mem_of_getLast? last))).2

theorem length_entriesFrom_le (offset : Nat) (table : List PhysEnt) :
    (entriesFrom offset table).length ≤ table.length := by
  induction table generalizing offset with
  | nil => exact le_rfl
  | cons first rest inductionHypothesis =>
      have shorter := inductionHypothesis (offset + physSize)
      rw [entriesFrom]
      split
      · exact Nat.succ_le_succ shorter
      · exact Nat.le_succ_of_le shorter

theorem length_entries_le (contents : List UInt8) :
    (entries contents).length ≤ (slots contents).length + 2 :=
  Nat.add_le_add_right (length_entriesFrom_le 0 (slots contents)) 2

/-- A call goes on with the listing.  If it reaches the end, whatever stayed in
the directory was delivered, and it does so if FUSE takes enough entries. -/
theorem Listing.Going.ensures_call
    (going : listing.Going fh dir)
    (serves : Serves env)
    (accepts : List Bool) :
    Ensures ((ListingStep.call accepts).run env fh dir)
      (fun ended next => next.Going fh dir ∧
        (ended = true → ∀ k, Stays Prod.snd (next.seen.map entries) k →
          ∃ item ∈ next.delivered, item.2 = k) ∧
        ((slots (contentsOf listing.fs dir)).length + 2 < taken accepts →
          ended = true)) listing := by
  obtain ⟨⟨node, opened, whole, current⟩, resumable, scanned⟩ := going
  obtain ⟨delivered, fs', run, isDelivered, same⟩ :=
    ensures_gdpfsReaddir serves.reads opened whole resumable accepts
  have isCurrent : entries node.contents ∈ listing.seen.map entries :=
    List.mem_map_of_mem current
  have inside : ∀ item ∈ delivered, item ∈ entries node.contents := by
    intro item member
    rw [isDelivered] at member
    exact (mem_behind.mp (List.mem_of_mem_take member)).1
  rw [ListingStep.run, ensures_bind, ensures_get, run]
  refine ⟨_, _, rfl, ⟨⟨node, opened.congr same, whole, current⟩,
    resumable_resume resumable inside, ?_⟩, ?_, ?_⟩
  · rw [isDelivered]
    exact scanned.portion isCurrent (increasing_entries _) _
  · intro ended k stays
    have short := of_decide_eq_true ended
    rw [isDelivered, List.length_take] at short
    dsimp only
    rw [isDelivered, List.take_of_length_le (by omega)]
    exact scanned.complete isCurrent stays
  · intro enough
    rw [contentsOf_openOn opened] at enough
    have most : delivered.length ≤
        (behind Prod.snd (entries node.contents) listing.offset).length := by
      rw [isDelivered]
      exact List.length_take_le' _ _
    have filtered : (behind Prod.snd (entries node.contents)
        listing.offset).length ≤ (entries node.contents).length :=
      List.length_filter_le _ _
    have table := length_entries_le node.contents
    exact decide_eq_true (by omega)

theorem Listing.Going.allows_step
    (going : listing.Going fh dir)
    (serves : Serves env)
    (step : ListingStep)
    (changes : step.Changes listing) :
    Allows (step.run env fh dir) (fun _ next => next.Going fh dir) listing := by
  cases step with
  | call accepts =>
      refine (going.ensures_call serves accepts).allows.mono ?_
      exact fun _ _ both => both.1
  | change op =>
      obtain ⟨⟨node, opened, whole, current⟩, resumable, scanned⟩ := going
      rw [ListingStep.run, allows_bind, allows_get]
      cases run : (op.run env).run listing.fs with
      | error fault => exact allows_throw
      | ok result =>
          obtain ⟨answer, fs'⟩ := result
          have kept := FuseOp.allows_tablesKept serves changes answer fs' run
          obtain ⟨node', stored, still⟩ := kept.tables dir node opened.node
          have opened' : OpenOn fs' fh dir node' :=
            ⟨kept.handles fh dir opened.handle, stored⟩
          rw [allows_bind, allows_set, allows_pure]
          refine ⟨⟨node', opened', still whole, ?_⟩, resumable, ?_⟩
          · rw [contentsOf_openOn opened']
            exact List.mem_cons_self
          · exact scanned.change _

theorem Listing.Going.nodup
    (going : listing.Going fh dir) :
    (listing.delivered.map Prod.snd).Nodup := by
  refine (List.pairwise_map.mpr going.scanned.increasing).imp ?_
  exact fun before => Nat.ne_of_lt before

theorem Listing.Going.times_eq_one
    (going : listing.Going fh dir)
    (found : ∃ item ∈ listing.delivered, item.2 = k) :
    listing.times k = 1 := by
  obtain ⟨item, member, rfl⟩ := found
  exact List.count_eq_one_of_mem going.nodup (List.mem_map_of_mem member)

theorem Listing.Going.names
    (going : listing.Going fh dir)
    (member : item ∈ listing.delivered) :
    item = ([46], 2) ∨ item = ([46, 46], 3) ∨
      ∃ contents ∈ listing.seen, ∃ index ent,
        (slots contents)[index]? = some ent ∧ ent.inUse = true ∧
          item = (ent.text, slotEnd index) := by
  obtain ⟨items, isItems, inside⟩ := going.scanned.known item member
  obtain ⟨contents, isSeen, rfl⟩ := List.mem_map.mp isItems
  rcases mem_entries.mp inside with dot | dotdot | slot
  · exact Or.inl dot
  · exact Or.inr (Or.inl dotdot)
  · exact Or.inr (Or.inr ⟨contents, isSeen, slot⟩)

/-- An offset belongs to one slot, and not to `.` or `..`. -/
theorem slotEnd_injective
    (same : slotEnd index = slotEnd other) :
    index = other := by
  rw [slotEnd, slotEnd, physSize] at same
  omega

theorem three_lt_slotEnd (index : Nat) : 3 < slotEnd index := by
  rw [slotEnd, physSize]
  omega

theorem Listing.Going.dots
    (going : listing.Going fh dir)
    (member : item ∈ listing.delivered)
    (early : item.2 ≤ 3) :
    item = ([46], 2) ∨ item = ([46, 46], 3) := by
  rcases going.names member with dot | dotdot | ⟨_, _, index, _, _, _, rfl⟩
  · exact Or.inl dot
  · exact Or.inr dotdot
  · exact absurd (three_lt_slotEnd index) (Nat.not_lt.mpr early)

/-- What the invariant says of a listing. -/
theorem Listing.Going.exact
    (going : listing.Going fh dir)
    (complete : ended = true → ∀ k,
      Stays Prod.snd (listing.seen.map entries) k →
        ∃ item ∈ listing.delivered, item.2 = k) :
    listing.Exact ended := by
  have always : ∀ item, (∀ contents, item ∈ entries contents) →
      Stays Prod.snd (listing.seen.map entries) item.2 := by
    intro item inside items isItems
    obtain ⟨contents, _, rfl⟩ := List.mem_map.mp isItems
    exact ⟨item, inside contents, rfl⟩
  refine ⟨?_, ?_, ?_, ?_, ?_, fun item => going.names⟩
  · intro ended
    have found := complete ended 2
      (always ([46], 2) fun _ => mem_entries.mpr (Or.inl rfl))
    refine ⟨?_, going.times_eq_one found⟩
    obtain ⟨item, member, isTwo⟩ := found
    rcases going.dots member (by omega) with rfl | rfl
    · exact member
    · cases isTwo
  · intro ended
    have found := complete ended 3
      (always ([46, 46], 3) fun _ => mem_entries.mpr (Or.inr (Or.inl rfl)))
    refine ⟨?_, going.times_eq_one found⟩
    obtain ⟨item, member, isThree⟩ := found
    rcases going.dots member (by omega) with rfl | rfl
    · cases isThree
    · exact member
  · intro ended index used
    refine going.times_eq_one (complete ended _ ?_)
    intro items isItems
    obtain ⟨contents, isSeen, rfl⟩ := List.mem_map.mp isItems
    obtain ⟨ent, isEnt, inUse⟩ := used contents isSeen
    exact ⟨(ent.text, slotEnd index),
      mem_entries.mpr (Or.inr (Or.inr ⟨index, ent, isEnt, inUse, rfl⟩)), rfl⟩
  · exact fun offset => List.nodup_iff_count_le_one.mp going.nodup offset
  · intro index free
    refine List.count_eq_zero.mpr fun member => ?_
    obtain ⟨item, inside, isEnd⟩ := List.mem_map.mp member
    have later := three_lt_slotEnd index
    rcases going.names inside with rfl | rfl |
      ⟨contents, isSeen, other, ent, isEnt, inUse, rfl⟩
    · rw [← isEnd] at later
      exact absurd later (by decide)
    · rw [← isEnd] at later
      exact absurd later (by decide)
    · cases slotEnd_injective isEnd
      exact free contents isSeen ⟨ent, isEnt, inUse⟩

end Listings

/-- Listings are exact: however FUSE splits a listing into calls, and whatever
files are created and removed between them, no slot is delivered twice, and none
that was free all the time; a call that reaches the end leaves `.`, `..` and
every slot that was in use all the time delivered once.  Every call returns, and
it reaches the end if FUSE takes enough entries. -/
theorem listing_exact
    {env : DirEnv}
    {fs : Fs}
    {node : Node}
    {listing : Listing}
    (serves : Serves env)
    (opened : OpenOn fs fh dir node)
    (whole : node.contents.length % physSize = 0)
    (reached : Reached (ListingStep.run env fh dir) ListingStep.Changes
      (Listing.start fs dir) listing)
    (accepts : List Bool) :
    Ensures ((ListingStep.call accepts).run env fh dir)
      (fun ended next => next.Exact ended ∧
        ((slots (contentsOf listing.fs dir)).length + 2 < taken accepts →
          ended = true)) listing := by
  have going : listing.Going fh dir := by
    refine Reached.invariant (Listing.Going fh dir)
      (Listing.going_start opened whole) ?_ reached
    exact fun step listing changes going =>
      going.allows_step serves step changes
  refine (going.ensures_call serves accepts).mono ?_
  rintro ended next ⟨going', complete, enough⟩
  exact ⟨going'.exact complete, enough⟩

/-- A handle on the root of a new file system. -/
def openRootDir : Fs :=
  { Fs.initial DirEnv.calm with
    store := (Fs.initial DirEnv.calm).store.withHandle 0
      DirEnv.calm.rootLogGname }

/-- A file is created before the listing and removed after it was listed, and
another one is created in between. -/
theorem listing_exact_split :
    ∃ listing, Reached (ListingStep.run DirEnv.calm 0
        DirEnv.calm.rootLogGname) ListingStep.Changes
        (Listing.start openRootDir DirEnv.calm.rootLogGname) listing ∧
      listing.delivered = [([46], 2), ([46, 46], 3), ([97], slotEnd 0)] ∧
      Ensures ((ListingStep.call (List.replicate 8 true)).run DirEnv.calm 0
          DirEnv.calm.rootLogGname)
        (fun ended next => next.Exact ended ∧
          ((slots (contentsOf listing.fs DirEnv.calm.rootLogGname)).length +
            2 < 8 → ended = true)) listing := by
  have replays : (replay
      (ListingStep.run DirEnv.calm 0 DirEnv.calm.rootLogGname)
      (fun step listing => decide (step.Changes listing))
      [.change (.create [slash, 97] 0o644), .call [true, false],
        .change (.create [slash, 98] 0o644), .call [true, true],
        .change (.unlink [slash, 97])]
      (Listing.start openRootDir DirEnv.calm.rootLogGname)).any
      (fun listing => listing.delivered ==
        [([46], 2), ([46, 46], 3), ([97], slotEnd 0)]) = true := by
    decide +kernel
  obtain ⟨listing, replayed, isListed⟩ := (Option.any_eq_true _ _).mp replays
  have reached : Reached (ListingStep.run DirEnv.calm 0
      DirEnv.calm.rootLogGname) ListingStep.Changes
      (Listing.start openRootDir DirEnv.calm.rootLogGname) listing :=
    reached_of_replay (fun _ _ => of_decide_eq_true) replayed
  have opened : OpenOn openRootDir 0 DirEnv.calm.rootLogGname
      ⟨.dir, rootDefaultPerm, []⟩ := ⟨rfl, rfl⟩
  exact ⟨listing, reached, beq_iff_eq.mp isListed,
    listing_exact serves_calm opened rfl reached (List.replicate 8 true)⟩

end Dir
end Gdpfs
