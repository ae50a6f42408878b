import Gdpfs.FigTree.Abstract.WriteSpec

/-!
# Trees in memory

When no child is left in the log, every write follows children in memory only.
When no entry reaches the last byte index, no write meets the edge where the
byte after an entry wraps around.  Both together make every write of a run go
through.
-/

namespace Gdpfs
namespace FigTree

section Eager

variable {regime : Regime} {h top low high : Nat} {range valid : Interval}

theorem SoundKid.isLoaded
    {kid : Kid (Tree h)}
    (sound : SoundKid regime h low high kid)
    (eager : ¬regime.partly) :
    kid.isLoaded = true := by
  match h, kid with
  | 0, _ => exact sound.2
  | _ + 1, .loaded _ _ => rfl
  | _ + 1, .unloaded _ _ _ => exact absurd sound.2 eager

theorem Ctx.Ok.allLoaded
    {ctx : Ctx h top}
    (ok : ctx.Ok regime low high)
    (eager : ¬regime.partly) :
    ctx.AllLoaded := by
  induction ctx with
  | nil => trivial
  | cons frame outer inductionHypothesis =>
      obtain ⟨_, frameOk, outerOk⟩ := ok
      refine ⟨?_, inductionHypothesis outerOk⟩
      cases loaded : frame.hole.isLoaded with
      | true => rfl
      | false =>
          exact loaded.symm.trans
            ((frameOk.hole loaded).isLoaded eager)

/-- The converse of `descend_allLoaded`. -/
theorem wayLoaded_of_allLoaded
    {ctx : Ctx h top}
    {tree : Tree h}
    (loaded : match descend range h ctx tree valid with
      | .null leaf => leaf.AllLoaded
      | .hit _ inner _ => inner.AllLoaded) :
    ctx.AllLoaded ∧ wayLoaded range h tree valid = true := by
  induction h generalizing valid with
  | zero => exact ⟨loaded, rfl⟩
  | succ h inductionHypothesis =>
      unfold descend at loaded
      unfold wayLoaded
      dsimp only at loaded ⊢
      cases scan : place range [] (Node.prune (h := h) tree valid).first
          (Node.prune (h := h) tree valid).rest with
      | hit left kid entry next rest =>
          rw [scan] at loaded
          exact ⟨loaded, rfl⟩
      | gap left kid right =>
          rw [scan] at loaded
          obtain ⟨⟨kidLoaded, ctxLoaded⟩, below⟩ :=
            inductionHypothesis loaded
          refine ⟨ctxLoaded, Bool.and_eq_true_iff.mpr ⟨?_, below⟩⟩
          exact kid.isLoaded_visit.symm.trans kidLoaded

end Eager

section Whole

variable {regime : Regime} {fig : Fig} {range : Interval}

/-- Below the last byte index no write meets the edge. -/
theorem Fig.Sound.edgeClear
    (sound : fig.Sound regime)
    (flag : range.nonempty = true)
    (ends : range.left ≤ range.right)
    (below : range.right < regime.limit)
    (limited : regime.limit ≤ byteIndexMax) :
    fig.EdgeClear range := by
  have spec := descend_spec (Nat.zero_le _) le_rfl
    (sound.descent ends below)
  unfold Fig.EdgeClear
  cases stop : descend range (fig.height + 1) .nil fig.tree
      (iInit byteIndexMin byteIndexMax) with
  | null leaf => trivial
  | hit deep inner hit =>
      rw [stop] at spec
      obtain ⟨node, struck⟩ := spec
      intro _ atEdge
      have overlap := struck.overlap (fun x _ upper =>
        ⟨Nat.zero_le _, (upper.trans below.le).trans limited⟩) flag
      have high := overlap.last.1.2.2.2.1
      have limitedBy := (validEnd_le regime hit.valid).1
      omega

/-- In a tree without children left in the log, a write follows children in
memory only. -/
theorem Fig.Sound.wayLoaded
    (sound : fig.Sound regime)
    (eager : ¬regime.partly)
    (flag : range.nonempty = true)
    (ends : range.left ≤ range.right)
    (below : range.right < regime.limit)
    (edgeClear : fig.EdgeClear range) :
    fig.wayLoaded range = true := by
  have spec := descend_spec (Nat.zero_le _) le_rfl
    (sound.descent ends below)
  have limited := regime.bounded
  have way : ∀ {deep : Nat} {ctx : Ctx deep (fig.height + 1)},
      ctx.Ok regime 0 regime.limit → ctx.AllLoaded :=
    fun ok => ok.allLoaded eager
  unfold Fig.EdgeClear at edgeClear
  unfold Fig.wayLoaded
  cases stop : descend range (fig.height + 1) .nil fig.tree
      (iInit byteIndexMin byteIndexMax) with
  | null leaf =>
      rw [stop] at spec
      have loaded := (wayLoaded_of_allLoaded
        (by rw [stop]; exact way spec.ok)).2
      rw [loaded]
      rfl
  | hit deep inner hit =>
      rw [stop] at spec edgeClear
      obtain ⟨node, struck⟩ := spec
      have inside : ∀ x, range.left ≤ x → x ≤ range.right →
          (iInit byteIndexMin byteIndexMax).left ≤ x ∧
            x ≤ (iInit byteIndexMin byteIndexMax).right := by
        intro x _ upper
        refine ⟨Nat.zero_le _, Nat.le_of_lt_succ ?_⟩
        exact lt_of_le_of_lt upper (lt_of_lt_of_le below limited)
      have overlap := struck.overlap inside flag
      obtain ⟨lows, highs⟩ := struck.gap_eq inside
      have loaded := (wayLoaded_of_allLoaded
        (by rw [stop]; exact way struck.descent.ok)).2
      rw [loaded]
      have rightLoaded : hit.rightLoaded range = true := by
        cases hasRight : hit.hasRight range with
        | false => simp [Hit.rightLoaded, hasRight]
        | true =>
            obtain ⟨leaf, lands, landed⟩ :=
              overlap.right_lands edgeClear hasRight
            have nextLoaded := overlap.last.2.1.1.isLoaded eager
            have below := (wayLoaded_of_allLoaded (by
              rw [lands]; exact landed.ok.allLoaded eager)).2
            simp [Hit.rightLoaded, nextLoaded, below]
      have leftLoaded : hit.leftLoaded range = true := by
        cases hasLeft : hit.hasLeft range with
        | false => simp [Hit.leftLoaded, hasLeft]
        | true =>
            obtain ⟨right, _, rightOk⟩ := (@Overlap.rightPart_spec _ _ _ 0) overlap
              edgeClear (Or.inr rightLoaded)
            obtain ⟨pathOk, pathLow, pathHigh, _⟩ := overlap.path_ok
              rightOk struck.descent.ok lows highs
            obtain ⟨leaf, lands, landed⟩ :=
              overlap.left_lands hasLeft pathOk pathLow pathHigh
            have kidLoaded := overlap.kid.isLoaded eager
            have below := (wayLoaded_of_allLoaded (by
              rw [lands]; exact landed.ok.allLoaded eager)).2
            simp [Hit.leftLoaded, kidLoaded, below]
      simp [rightLoaded, leftLoaded]

end Whole

/-! ## Bytes past the limit -/

theorem lookIn_past_all
    {rest : List (FtEnt × Kid C)}
    (ordered : Ordered low high rest)
    (past : high ≤ x)
    (nothing : ∀ low' high' kid, good low' high' kid →
      answer (Kid.get kid) = none)
    (kids : KidsIn good low high kid rest) :
    lookIn answer x kid rest = none := by
  induction rest generalizing low kid with
  | nil => exact nothing _ _ _ kids.1
  | cons head rest inductionHypothesis =>
      obtain ⟨entry, next⟩ := head
      obtain ⟨_, _, ends, upper, beyond⟩ := ordered
      rw [lookIn_past ends (by omega)]
      exact inductionHypothesis beyond kids.2

/-- Nothing is found past the limit. -/
theorem Sound.look_past
    {regime : Regime}
    {h : Nat}
    {tree : Tree h}
    (sound : Sound regime h low high tree)
    (past : regime.limit ≤ x) :
    look h tree x = none := by
  induction h generalizing low high with
  | zero => rfl
  | succ h inductionHypothesis =>
      exact lookIn_past_all sound.ordered past
        (fun _ _ _ good => inductionHypothesis good.1) sound.kids

end FigTree
end Gdpfs
