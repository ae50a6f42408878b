import Gdpfs.FigTree.Abstract.Eager

/-!
# Figs of a tree

The figs of a tree in a region, from left to right: what an iterator over the
region has to yield.  They are disjoint and increasing, and together they say
the same as lookups.
-/

namespace Gdpfs
namespace FigTree

/-- The part of an entry inside a region, if there is one. -/
def clip (low high : Nat) (entry : FtEnt) : List FtEnt :=
  if max entry.irange.left low < min (entry.irange.right + 1) high then
    [{ entry with
      irange :=
        { entry.irange with
          left := max entry.irange.left low
          right := min entry.irange.right (high - 1) } }]
  else []

/-- The figs of the entries of a node and of the children to their right,
given the figs of a child in a region. -/
def figsRest (figs : Nat → Nat → C → List FtEnt) (low high : Nat) :
    List (FtEnt × Kid C) → List FtEnt
  | [] => []
  | (entry, next) :: rest =>
      clip low high entry ++
        (figs (max low (entry.irange.right + 1)) (min high (highOf high rest))
            next.get ++
          figsRest figs low high rest)

/-- The figs of a tree in a region. -/
def figsOf : (h : Nat) → (low high : Nat) → Tree h → List FtEnt
  | 0, _, _, _ => []
  | h + 1, low, high, tree =>
      figsOf h low
          (min high (highOf high (Node.rest (C := Tree h) tree)))
          (Node.first (C := Tree h) tree).get ++
        figsRest (figsOf h) low high (Node.rest (C := Tree h) tree)

/-- Every node of the tree has its entries in order. -/
def Sorted : (h : Nat) → Tree h → Prop
  | 0, _ => True
  | h + 1, tree =>
      Ordered 0 byteIndexEnd (Node.rest (C := Tree h) tree) ∧
        ∀ kid ∈ Node.kids (C := Tree h) tree, Sorted h kid.get

/-- Some fig of the list gives the byte a value. -/
def Gives (figs : List FtEnt) (x : Nat) (value : Int) : Prop :=
  ∃ fig ∈ figs, fig.irange.left ≤ x ∧ x ≤ fig.irange.right ∧
    fig.value = value

/-- Figs inside a region that are disjoint and increasing. -/
structure Spread (low high : Nat) (figs : List FtEnt) : Prop where
  within : ∀ fig ∈ figs, low ≤ fig.irange.left ∧
    fig.irange.left ≤ fig.irange.right ∧ fig.irange.right < high
  increasing : figs.Pairwise
    fun before after => before.irange.right < after.irange.left

section Spread

variable {low middle high low' high' : Nat} {figs more : List FtEnt}

theorem spread_nil : Spread low high [] :=
  ⟨nofun, List.Pairwise.nil⟩

theorem Spread.mono
    (spread : Spread low high figs)
    (lowLe : low' ≤ low)
    (highLe : high ≤ high') :
    Spread low' high' figs := by
  refine ⟨fun fig member => ?_, spread.increasing⟩
  have := spread.within fig member
  omega

theorem Spread.append
    (first : Spread low middle figs)
    (second : Spread middle high more)
    (lowLe : low ≤ middle)
    (highLe : middle ≤ high) :
    Spread low high (figs ++ more) := by
  constructor
  · intro fig member
    rcases List.mem_append.mp member with inFirst | inSecond
    · have := first.within fig inFirst
      omega
    · have := second.within fig inSecond
      omega
  · refine List.pairwise_append.mpr
      ⟨first.increasing, second.increasing, fun before inFirst after
        inSecond => ?_⟩
    have := first.within before inFirst
    have := second.within after inSecond
    omega

theorem gives_append :
    Gives (figs ++ more) x value ↔ Gives figs x value ∨ Gives more x value := by
  simp only [Gives, List.mem_append, or_and_right, exists_or]

/-- Figs give no value outside their region. -/
theorem Spread.not_gives
    (spread : Spread low high figs)
    (outside : ¬(low ≤ x ∧ x < high)) :
    ¬Gives figs x value := by
  rintro ⟨fig, member, lower, upper, _⟩
  have := spread.within fig member
  omega

theorem spread_clip (entry : FtEnt) :
    Spread (max entry.irange.left low) (min (entry.irange.right + 1) high)
      (clip low high entry) := by
  unfold clip
  split
  · next meets =>
      refine ⟨fun fig member => ?_, List.pairwise_singleton _ _⟩
      cases List.mem_singleton.mp member
      simp only
      omega
  · exact spread_nil

theorem gives_clip
    {entry : FtEnt}
    (lower : low ≤ x)
    (upper : x < high) :
    Gives (clip low high entry) x value ↔
      (entry.irange.left ≤ x ∧ x ≤ entry.irange.right) ∧
        entry.value = value := by
  constructor
  · intro gives
    have within : max entry.irange.left low ≤ x ∧
        x < min (entry.irange.right + 1) high := by
      by_contra outside
      exact (spread_clip entry).not_gives outside gives
    obtain ⟨fig, member, _, _, sameValue⟩ := gives
    unfold clip at member
    split at member
    · cases List.mem_singleton.mp member
      exact ⟨by omega, sameValue⟩
    · cases member
  · rintro ⟨inside, sameValue⟩
    unfold clip
    rw [if_pos (by omega)]
    exact ⟨_, List.mem_singleton_self _, by simp only; omega,
      by simp only; omega, sameValue⟩

end Spread

section Figs

variable {figs : Nat → Nat → C → List FtEnt} {base top low high : Nat}
  {rest : List (FtEnt × Kid C)}

theorem Ordered.from_first
    (ordered : Ordered base top rest)
    (high : Nat) :
    Ordered (highOf high rest) top rest := by
  cases rest with
  | nil => trivial
  | cons head rest =>
      exact ⟨ordered.1, le_rfl, ordered.2.2⟩

theorem spread_figsRest
    (ordered : Ordered base top rest)
    (each : ∀ kid ∈ rest.map Prod.snd, ∀ low high,
      Spread low high (figs low high kid.get)) :
    Spread (max base low) high (figsRest figs low high rest) := by
  induction rest generalizing base with
  | nil => exact spread_nil
  | cons head rest inductionHypothesis =>
      obtain ⟨entry, next⟩ := head
      obtain ⟨_, lower, ends, _, beyond⟩ := ordered
      have eachRest : ∀ kid ∈ rest.map Prod.snd, _ := fun kid member =>
        each kid (List.mem_cons_of_mem _ member)
      have here := (@spread_clip low high) entry
      have gap := each next List.mem_cons_self
        (max low (entry.irange.right + 1)) (min high (highOf high rest))
      have after := inductionHypothesis beyond eachRest
      have far := inductionHypothesis (beyond.from_first high) eachRest
      unfold figsRest
      constructor
      · intro fig member
        simp only [List.mem_append] at member
        rcases member with inHere | inGap | inRest
        · have := here.within fig inHere
          omega
        · have := gap.within fig inGap
          omega
        · have := after.within fig inRest
          omega
      · refine List.pairwise_append.mpr ⟨here.increasing,
          List.pairwise_append.mpr ⟨gap.increasing, after.increasing, ?_⟩,
          ?_⟩
        · intro before inGap fig inRest
          have := gap.within before inGap
          have := far.within fig inRest
          omega
        · intro before inHere fig inTail
          have := here.within before inHere
          rcases List.mem_append.mp inTail with inGap | inRest
          · have := gap.within fig inGap
            omega
          · have := after.within fig inRest
            omega

/-- The figs of a tree lie in the region, disjoint and increasing. -/
theorem Sorted.spread
    {tree : Tree h}
    (sorted : Sorted h tree)
    (low high : Nat) :
    Spread low high (figsOf h low high tree) := by
  induction h generalizing low high with
  | zero => exact spread_nil
  | succ h inductionHypothesis =>
      obtain ⟨ordered, kids⟩ := sorted
      have first := inductionHypothesis (kids _ List.mem_cons_self) low
        (min high (highOf high (Node.rest (C := Tree h) tree)))
      have each : ∀ kid ∈ (Node.rest (C := Tree h) tree).map Prod.snd,
          ∀ low high, Spread low high (figsOf h low high kid.get) :=
        fun kid member => inductionHypothesis
          (kids kid (List.mem_cons_of_mem _ member))
      have rest := (@spread_figsRest _ _ _ _ low high) ordered each
      have far := (@spread_figsRest _ _ _ _ low high)
        (ordered.from_first high) each
      unfold figsOf
      constructor
      · intro fig member
        rcases List.mem_append.mp member with inFirst | inRest
        · have := first.within fig inFirst
          omega
        · have := rest.within fig inRest
          omega
      · refine List.pairwise_append.mpr
          ⟨first.increasing, rest.increasing, fun before inFirst fig inRest
            => ?_⟩
        have := first.within before inFirst
        have := far.within fig inRest
        omega

theorem gives_figsRest
    {answer : C → Option Int}
    (ordered : Ordered base top rest)
    (spread : ∀ other ∈ kid :: rest.map Prod.snd, ∀ low high,
      Spread low high (figs low high (Kid.get other)))
    (agrees : ∀ other ∈ kid :: rest.map Prod.snd, ∀ low high, low ≤ x →
      x < high → (Gives (figs low high (Kid.get other)) x value ↔
        answer other.get = some value))
    (lower : low ≤ x)
    (upper : x < high)
    (kidLower : start ≤ x) :
    Gives (figs start (min high (highOf high rest)) kid.get ++
        figsRest figs low high rest) x value ↔
      lookIn answer x kid rest = some value := by
  induction rest generalizing base kid start with
  | nil =>
      rw [figsRest, List.append_nil, highOf_nil, min_self, lookIn]
      exact agrees kid List.mem_cons_self start high kidLower upper
  | cons head rest inductionHypothesis =>
      obtain ⟨entry, next⟩ := head
      obtain ⟨flag, lowBound, ends, highBound, beyond⟩ := ordered
      have before := spread kid List.mem_cons_self start
        (min high entry.irange.left)
      have after := (@spread_figsRest _ _ _ _ low high) beyond
        fun kid member => spread kid
          (List.mem_cons_of_mem _ (List.mem_cons_of_mem _ member))
      have gap := spread next
        (List.mem_cons_of_mem _ List.mem_cons_self)
        (max low (entry.irange.right + 1)) (min high (highOf high rest))
      have inClip := (@gives_clip _ _ _ value entry) lower upper
      have step := @inductionHypothesis _ _
        (max low (entry.irange.right + 1)) beyond
        (fun kid member => spread kid (List.mem_cons_of_mem _ member))
        (fun kid member => agrees kid (List.mem_cons_of_mem _ member))
      rw [highOf_cons, figsRest, gives_append, gives_append, inClip]
      by_cases early : x < entry.irange.left
      · have here := agrees kid List.mem_cons_self start
          (min high entry.irange.left) kidLower (by omega)
        rw [here, gives_append]
        have noGap := (@Spread.not_gives _ _ _ x value) gap (by omega)
        have noRest := (@Spread.not_gives _ _ _ x value) after (by omega)
        have notInside : ¬iContainsVal entry.irange x = true := by
          rw [iContainsVal_iff]
          omega
        rw [lookIn, if_neg notInside, if_pos early]
        constructor
        · rintro (found | ⟨inside, _⟩ | found | found)
          · exact found
          · omega
          · exact absurd found noGap
          · exact absurd found noRest
        · exact Or.inl
      · have noKid := (@Spread.not_gives _ _ _ x value) before (by omega)
        by_cases inside : x ≤ entry.irange.right
        · have noGap := (@Spread.not_gives _ _ _ x value) gap (by omega)
          have noRest := (@Spread.not_gives _ _ _ x value) after
            (by omega)
          rw [lookIn_inside (Nat.le_of_not_lt early) inside, gives_append]
          constructor
          · rintro (found | ⟨_, same⟩ | found | found)
            · exact absurd found noKid
            · exact congrArg some same
            · exact absurd found noGap
            · exact absurd found noRest
          · intro same
            exact Or.inr (Or.inl ⟨⟨by omega, inside⟩,
              Option.some.inj same⟩)
        · rw [lookIn_past ends (Nat.lt_of_not_le inside),
            ← step (by omega)]
          constructor
          · rintro (found | ⟨outside, _⟩ | found)
            · exact absurd found noKid
            · omega
            · exact found
          · exact fun found => Or.inr (Or.inr found)

/-- Inside the region, the figs of a tree say what lookups in it say. -/
theorem Sorted.gives_iff
    {tree : Tree h}
    (sorted : Sorted h tree)
    (lower : low ≤ x)
    (upper : x < high)
    (value : Int) :
    Gives (figsOf h low high tree) x value ↔
      look h tree x = some value := by
  induction h generalizing low high with
  | zero => simp [figsOf, Gives, look]
  | succ h inductionHypothesis =>
      obtain ⟨ordered, kids⟩ := sorted
      exact gives_figsRest ordered
        (fun kid member => (kids kid member).spread)
        (fun kid member low high lower upper =>
          inductionHypothesis (kids kid member) lower upper)
        lower upper lower

theorem Spread.eq_nil
    {figs : List FtEnt}
    (spread : Spread low high figs)
    (empty : high ≤ low) :
    figs = [] := by
  refine List.eq_nil_iff_forall_not_mem.mpr fun fig member => ?_
  have := spread.within fig member
  omega

/-- Entries left of the region yield nothing, nor do the children on their
left. -/
theorem figsRest_pruneBefore
    (ordered : Ordered base top rest)
    (spread : ∀ other ∈ kid :: rest.map Prod.snd, ∀ low high,
      Spread low high (figs low high (Kid.get other)))
    (isLow : low = valid.left) :
    figs low (min high (highOf high rest)) kid.get ++
        figsRest figs low high rest =
      figs low (min high (highOf high (pruneBefore valid kid rest).2))
          (pruneBefore valid kid rest).1.get ++
        figsRest figs low high (pruneBefore valid kid rest).2 := by
  induction rest generalizing base kid with
  | nil => rfl
  | cons head rest inductionHypothesis =>
      obtain ⟨entry, next⟩ := head
      obtain ⟨flag, lowBound, ends, highBound, beyond⟩ := ordered
      unfold pruneBefore
      by_cases before : iLeftOfInt entry.irange valid = true
      · have early := (iLeftOfInt_iff.mp before).2
        rw [if_pos before, ← inductionHypothesis beyond fun other member =>
          spread other (List.mem_cons_of_mem _ member)]
        have noKid := (spread kid List.mem_cons_self low
          (min high entry.irange.left)).eq_nil (by omega)
        have noClip : clip low high entry = [] := by
          unfold clip
          rw [if_neg (by omega)]
        rw [highOf_cons, figsRest, noKid, noClip, List.nil_append,
          List.nil_append, max_eq_left (by omega)]
      · rw [if_neg before]

end Figs

end FigTree
end Gdpfs
