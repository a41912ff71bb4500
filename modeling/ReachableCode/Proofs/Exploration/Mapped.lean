import ReachableCode.Proofs.Exploration.Sound

/-!
Where graphs have blocks and instructions: only where something is decoded, be it an instruction or not, and so
at addresses that a section maps. Each step keeps this, a fault leaves it, and splits do not visit anything new.
-/

namespace ReachableCode

open Interruption (during)

namespace Explorer

/-- Something is decoded wherever the graph was visited. -/
def MapsVisited (x : Explorer) (g : BlockGraph) : Prop :=
  ∀ a, g.isVisited a = true → x.Maps a

variable {x : Explorer} {s t : Exploration} {item : WorkItem} {rest : List WorkItem} {g h : BlockGraph}
  {a block old new : Address} {b : Block} {d : Decoded} {origin : Option Address}

namespace MapsVisited

theorem empty : x.MapsVisited .empty := fun _ hv => by
  simp [BlockGraph.isVisited_iff] at hv

theorem sameCode (hm : x.MapsVisited g) (hs : g.SameCode h) : x.MapsVisited h := fun a hv =>
  hm a (hs.isVisited.symm.trans hv)

theorem room (hm : x.MapsVisited s.graph) (hd : x.Maps a) (hv : s.graph.isVisited a = false) :
    x.MapsVisited (s.room a origin).2 := by
  intro u hu
  obtain ⟨-, hb⟩ := BlockGraph.isVisited_eq_false.1 hv
  rw [BlockGraph.isVisited, Bool.or_eq_true, Exploration.isDecoded_room] at hu
  rcases hu with hu | hu
  · exact hm u (by simp [BlockGraph.isVisited, hu])
  · obtain ⟨c, hc⟩ := BlockGraph.isBlockStart_iff.1 hu
    rcases room_cases hb hc with hc | ⟨hcur, rfl, -⟩
    · exact hm _ (BlockGraph.isVisited_iff.2 (Or.inr ⟨c, hc⟩))
    · simpa [Exploration.room, hcur] using hd

theorem append (hm : x.MapsVisited g) (hd : x.Maps a) (hp : g.append block a d = .ok h) :
    x.MapsVisited h := by
  intro u hu
  obtain ⟨b, -, -, own⟩ := BlockGraph.append_eq_ok hp
  rw [BlockGraph.isVisited, Bool.or_eq_true, BlockGraph.isDecoded_iff, own,
    BlockGraph.isBlockStart_append hp] at hu
  by_cases here : a = u
  · exact here ▸ hd
  · rw [if_neg here, ← BlockGraph.isDecoded_iff, ← Bool.or_eq_true] at hu
    exact hm u hu

theorem split (hm : x.MapsVisited g) (hg : g.Consistent) (hs : g.split old new = .ok h) :
    x.MapsVisited h := by
  intro u hu
  obtain ⟨b, before, after, hc⟩ := BlockGraph.cuts_of_split hs
  rw [BlockGraph.isVisited, Bool.or_eq_true, hc.isDecoded hg, hc.isBlockStart, ← or_assoc,
    ← Bool.or_eq_true] at hu
  rcases hu with hu | rfl
  · exact hm u hu
  · exact hm _ (BlockGraph.isVisited_iff.2 (Or.inl ⟨old, hc.owner_new hg⟩))

theorem makeStartIfDecoded (hm : x.MapsVisited g) (hg : g.Consistent)
    (hs : g.makeStartIfDecoded a = .ok h) : x.MapsVisited h := by
  rcases BlockGraph.makeStartIfDecoded_cases hs with ⟨-, rfl⟩ | ⟨s, -, -, hs⟩
  · exact hm
  · exact hm.split hg hs

theorem step (hm : x.MapsVisited s.graph) (hs : s.Steady) (ht : x.Takes s item rest t) :
    x.MapsVisited t.graph := by
  cases ht with
  | unresolved => exact hm
  | unmapped => exact hm
  | @revisited a g _ _ hs' =>
    have left : s.graph.SameCode (s.graph.leaveFor s.current a) := BlockGraph.sameCode_leaveFor
    have cut := (hm.sameCode left).makeStartIfDecoded (hs.consistent.sameCode left) hs'
    exact cut.sameCode BlockGraph.sameCode_comeFrom
  | invalid _ hv hd _ => exact hm.room ⟨_, hd⟩ hv
  | plain _ hv hd _ _ _ hp => exact (hm.room ⟨_, hd⟩ hv).append ⟨_, hd⟩ hp
  | transfer _ hv hd _ _ _ hp =>
    exact ((hm.room ⟨_, hd⟩ hv).append ⟨_, hd⟩ hp).sameCode BlockGraph.sameCode_addSuccessors

theorem abandon (hm : x.MapsVisited s.graph) (ha : x.Abandons s item g) : x.MapsVisited g := by
  cases ha with
  | untouched => exact hm
  | left => exact hm.sameCode BlockGraph.sameCode_leaveFor
  | roomed _ hv hd => exact hm.room ⟨_, hd⟩ hv
  | extended _ hv hd _ hp same => exact ((hm.room ⟨_, hd⟩ hv).append ⟨_, hd⟩ hp).sameCode same

end MapsVisited

theorem mapsVisited_lasting : x.Lasting (fun g => g.Consistent ∧ x.MapsVisited g)
    (fun s => s.Steady ∧ x.MapsVisited s.graph) where
  start entry hg := ⟨.starting hg.1 entry, hg.2⟩
  step hs hw ht := ⟨hs.1.step hw ht, hs.2.step hs.1 ht⟩
  abandon hs hw ha := ⟨steady_lasting.abandon hs.1 hw ha, hs.2.abandon ha⟩
  stop hs := ⟨hs.1.consistent, hs.2⟩
  cut hg hs := ⟨hg.1.makeStartIfDecoded hs, hg.2.makeStartIfDecoded hg.1 hs⟩

theorem Attainable.mapsVisited (hg : x.Attainable g) : x.MapsVisited g := by
  have lasting := mapsVisited_lasting.attainable ⟨.empty, .empty⟩
    (fun hg hs => ⟨hg.1.split hs, hg.2.split hg.1 hs⟩) hg
  exact lasting.2

/-- A section maps the start of each block. -/
theorem Attainable.exists_sectionAt (hg : x.Attainable g) (hb : g.block? a = some b) :
    ∃ place, x.program.sectionAt a = .ok (some place) := by
  obtain ⟨d, hd⟩ := hg.mapsVisited a (BlockGraph.isVisited_iff.2 (Or.inr ⟨b, hb⟩))
  obtain ⟨c?, hc, hd⟩ := bind_eq_ok.1 hd
  obtain ⟨place?, hp, hc⟩ := bind_eq_ok.1 hc
  cases hc
  cases place? with
  | none => cases hd
  | some place => exact ⟨place, hp⟩

end Explorer

end ReachableCode
