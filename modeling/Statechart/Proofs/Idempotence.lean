import Statechart.Proofs.Build
import Statechart.Proofs.Resolve

-- Resolving what a resolution comes to: whatever is added below or above the targets would be added
-- again, and nothing else, so that targeting it changes nothing.

namespace Statechart

namespace Tree

variable {t : Tree} {h : History} {K K' : Set NodeIndex} {seeds seeds' : List NodeIndex}
  {n k : NodeIndex}

namespace WellFormed

variable (wf : t.WellFormed)
include wf

-- What is entered anyway can be targeted, too. An initial child is no longer entered for lack of a
-- target once one lies below its parent, but then it lies above that target.
theorem entered_between (hK : K ⊆ K') (hK' : ∀ k ∈ K', t.Entered K k) :
    t.Entered K' n ↔ t.Entered K n := by
  have hclosed : t.Closed K { n | t.Entered K n } := wf.entered_closed
  have hclosed' : t.Closed K' { n | t.Entered K' n } := wf.entered_closed
  constructor
  case mp =>
    refine wf.entered_least ⟨hK', hclosed.parent, hclosed.regions, ?_⟩
    exact fun n hn hk hb => hclosed.initial n hn hk fun k hkK => hb k (hK hkK)
  case mpr =>
    refine wf.entered_least
      ⟨fun k hk => hclosed'.targets (hK hk), hclosed'.parent, hclosed'.regions, ?_⟩
    intro n hn hk hb i hi
    by_cases hb' : ∃ k ∈ K', n ∈ t.ancestors k
    case neg => exact .initial hn hk (by simpa using hb') hi
    case pos =>
      obtain ⟨k, hkK, hkn⟩ := hb'
      obtain ⟨c, hc, hck⟩ := wf.exists_child_above hkn
      have hce : t.Entered K c := hclosed.path_subset wf (hK' k hkK) hck
      rcases wf.entered_child hk hc hce with ⟨j, hj, hcj⟩ | ⟨_, hic⟩
      · exact absurd (wf.ancestors_of_ancestor_path (wf.mem_ancestors_of_child hc) hcj) (hb j hj)
      · obtain rfl := Option.some.inj (hi.symm.trans hic)
        exact .above hkK hck

-- More targets lead to the same nodes as long as these were all entered before.
theorem resolve_between (hK : t.Concrete h seeds ⊆ t.Concrete h seeds')
    (hK' : ∀ k ∈ t.Concrete h seeds', k ∈ t.resolve h seeds) :
    t.resolve h seeds' = t.resolve h seeds := by
  ext n
  rw [wf.mem_resolve, wf.mem_resolve]
  exact wf.entered_between hK fun k hk => wf.mem_resolve.mp (hK' k hk)

section Recorded

variable (hr : ∀ k r, h.find? k = some r → ∀ n ∈ r, (t.node n).isHistory = false)
include hr

theorem resolve_not_history (hn : n ∈ t.resolve h seeds) : (t.node n).isHistory = false :=
  wf.entered_not_history
    (fun _ hk => hk.elim fun n hs => wf.not_history_of_standsFor (fun r _ => hr n r) hs.right)
    (wf.mem_resolve.mp hn)

theorem concrete_resolve (hs : ∀ n ∈ seeds', n ∈ t.resolve h seeds) :
    t.Concrete h seeds' = { n | n ∈ seeds' } :=
  concrete_eq fun n hn => wf.resolve_not_history hr (hs n hn)

end Recorded

end WellFormed

variable {machineId : String} {root : Definition.State}

-- Resolving is idempotent as long as no history node is recorded: resolving all the nodes that some
-- seeds lead to gives the same nodes, and so does adding any of them to the seeds.
theorem resolve_idempotent (hb : root.build machineId = .ok t)
    (hr : ∀ k r, h.find? k = some r → ∀ n ∈ r, (t.node n).isHistory = false)
    (seeds : List NodeIndex) :
    t.resolve h (t.resolve h seeds).toList = t.resolve h seeds ∧
      ∀ more, (∀ n ∈ more, n ∈ t.resolve h seeds) →
        t.resolve h (seeds ++ more) = t.resolve h seeds := by
  have wf := Definition.State.build_wellFormed hb
  have htargets k (hk : k ∈ t.Concrete h seeds) : k ∈ t.resolve h seeds :=
    wf.mem_resolve.mpr (.above hk self_mem_path)
  constructor
  case left =>
    have hK : t.Concrete h (t.resolve h seeds).toList = { n | n ∈ t.resolve h seeds } :=
      wf.concrete_resolve hr fun _ hn => SortedSet.mem_iff.mpr hn
    apply wf.resolve_between <;> rw [hK]
    · exact htargets
    · exact fun _ hk => hk
  case right =>
    intro more hmore
    have hK : t.Concrete h (seeds ++ more) = t.Concrete h seeds ∪ { n | n ∈ more } := by
      rw [← wf.concrete_resolve hr hmore]
      ext k
      simp [mem_concrete]
    apply wf.resolve_between <;> rw [hK]
    · exact Set.subset_union_left
    · exact fun k hk => hk.elim (htargets k) (hmore k)

-- To be off and to go on with what is remembered exclude each other, but are resolved all the same.
theorem resolve_idempotent_player :
    (∀ k r, SortedMap.find? (SortedMap.insert ∅ 3 (.ofList [6, 9]) : History) k = some r →
      ∀ n ∈ r, (playerTree.node n).isHistory = false) ∧
    playerTree.resolve (SortedMap.insert ∅ 3 (.ofList [6, 9])) [1, 3] =
      .ofList [0, 1, 2, 4, 6, 7, 9] ∧
    playerTree.resolve (SortedMap.insert ∅ 3 (.ofList [6, 9])) [0, 1, 2, 4, 6, 7, 9] =
      .ofList [0, 1, 2, 4, 6, 7, 9] ∧
    Configuration.isLegal playerTree (.ofList [0, 1, 2, 4, 6, 7, 9]) = false := by
  have hr k r (hf : SortedMap.find? (SortedMap.insert ∅ 3 (.ofList [6, 9]) : History) k = some r) :
      ∀ n ∈ r, (playerTree.node n).isHistory = false := by
    rw [SortedMap.find?_insert] at hf
    split at hf
    · obtain rfl := Option.some.inj hf
      decide +kernel
    · cases hf
  have hresolve : playerTree.resolve (SortedMap.insert ∅ 3 (.ofList [6, 9])) [1, 3] =
      .ofList [0, 1, 2, 4, 6, 7, 9] := by decide +kernel
  have hagain := (resolve_idempotent player_build hr [1, 3]).left
  rw [hresolve] at hagain
  exact ⟨hr, hresolve, hagain, by decide +kernel⟩

end Tree

end Statechart
