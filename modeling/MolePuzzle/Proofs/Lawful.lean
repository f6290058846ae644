import Mathlib.Data.List.Chain
import MolePuzzle.Proofs.Moves
import MolePuzzle.Proofs.Run
import MolePuzzle.Proofs.Timeline

/-!
# Worlds that keep to the rule

A world remembers more than it shows: past and future moments that can come back.  `World.Lawful`
says of all of them what the rule of moves makes true of a game: at every moment the actors are
placed, each moment leads to the next by a move, and the present moment of the history is that of
the world.

Whatever is played keeps a world lawful (`World.Lawful.play`), as long as the cells that the world
takes for floor are walkable: a move adds a moment that follows from the present one, and a way
through the history loses none.
-/

set_option autoImplicit false

namespace MolePuzzle

/-! ## Linked moments -/

/-- Each of the moments leads to the next by a move. -/
def Linked (walkable : Coord → Prop) (moments : List Actors) : Prop :=
  moments.IsChain fun a b ↦ ∃ d, a.Moves walkable d b

/-- A world whose present and remembered moments have come about by the rule of moves. -/
structure World.Lawful (walkable : Coord → Prop) (w : World) : Prop where
  placed : w.actors.Placed walkable
  shows : w.history.Shows w.actors
  entries_placed : ∀ a ∈ w.history.entries.toList, a.Placed walkable
  linked : Linked walkable w.history.entries.toList

namespace World

variable {walkable walkable' : Coord → Prop} {w : World}

/-- A world is lawful when only its present has to be. -/
theorem lawful_of_start (hplaced : w.actors.Placed walkable)
    (hhistory : w.history = .start w.actors) : w.Lawful walkable := by
  refine ⟨hplaced, ?_, ?_, ?_⟩
  · rw [hhistory]
    exact History.shows_start _
  · rw [hhistory, History.start_eq_ofParts]
    simpa using hplaced
  · rw [hhistory, History.start_eq_ofParts]
    exact .singleton _

namespace Lawful

theorem imp (himp : ∀ c, walkable c → walkable' c) (h : w.Lawful walkable) :
    w.Lawful walkable' where
  placed := h.placed.imp himp
  shows := h.shows
  entries_placed a ha := (h.entries_placed a ha).imp himp
  linked := h.linked.imp fun _ _ ⟨d, hd⟩ ↦ ⟨d, hd.imp himp⟩

/-- The moments a new move is added to: the present one is the last of them. -/
theorem exists_past (h : w.Lawful walkable) : ∃ past,
    (∀ a ∈ past, a.Placed walkable) ∧ Linked walkable (past ++ [w.actors]) ∧
      ∀ b, (if w.history.isEmpty then w.history.add w.actors else w.history).add b =
        .ofParts (past ++ [w.actors]) b [] := by
  obtain ⟨past, rfl | ⟨future, hhistory⟩, hadd⟩ := h.shows.exists_add
  · exact ⟨[], by simp, .singleton _, hadd⟩
  · have hplaced := h.entries_placed
    have hlinked := h.linked
    rw [hhistory, History.toList_entries_ofParts] at hplaced hlinked
    exact ⟨past, fun a ha ↦ hplaced a (List.mem_append_left _ ha),
      (List.isChain_split.mp hlinked).1, hadd⟩

/-- A move keeps a world lawful. -/
theorem commit (h : w.Lawful walkable) (hfloor : ∀ c ∈ w.floor, walkable c) {d : Direction}
    {p : Plan} (hp : w.plan? d = some p) : (w.commit p).1.Lawful walkable := by
  obtain ⟨past, hpast, hlinked, hadd⟩ := h.exists_past
  have hmoves : w.actors.Moves walkable d (w.actorsAfter p) := (moves_of_plan? hp).imp hfloor
  have hafter : (w.actorsAfter p).Placed walkable := hmoves.placed h.placed
  have hhistory : (w.commit p).1.history = .ofParts (past ++ [w.actors]) (w.actorsAfter p) [] :=
    hadd _
  refine ⟨hafter, ?_, ?_, ?_⟩
  · rw [hhistory]
    exact History.shows_ofParts
  · rw [hhistory, History.toList_entries_ofParts]
    intro a ha
    rcases List.mem_append.mp ha with ha | ha
    · rcases List.mem_append.mp ha with ha | ha
      · exact hpast a ha
      · exact List.mem_singleton.mp ha ▸ h.placed
    · exact List.mem_singleton.mp ha ▸ hafter
  · rw [hhistory, History.toList_entries_ofParts, List.append_assoc, List.singleton_append]
    exact List.isChain_append_cons_cons.mpr ⟨hlinked, ⟨d, hmoves⟩, .singleton _⟩

/-- Going to another moment of the history keeps a world lawful, if no moment is lost. -/
theorem travel (h : w.Lawful walkable) {a : Actors} {past future : List Actors}
    (hentries : w.history.entries.toList = past ++ a :: future) (count : Nat → Nat) :
    (w.travel count a (.ofParts past a future)).1.Lawful walkable := by
  have hplaced := h.entries_placed
  have hlinked := h.linked
  rw [hentries] at hplaced hlinked
  exact ⟨hplaced a (by simp), History.shows_ofParts, hplaced, hlinked⟩

theorem undo (h : w.Lawful walkable) {a : Actors} {history : History}
    (hundo : w.history.undo? = some (a, history)) (count : Nat → Nat) :
    (w.travel count a history).1.Lawful walkable := by
  obtain ⟨past, future, hshows, rfl⟩ := h.shows.undo?_eq_some hundo
  exact h.travel (by rw [hshows]; simp) count

theorem redo (h : w.Lawful walkable) {a : Actors} {history : History}
    (hredo : w.history.redo? = some (a, history)) (count : Nat → Nat) :
    (w.travel count a history).1.Lawful walkable := by
  obtain ⟨past, future, hshows, rfl⟩ := h.shows.redo?_eq_some hredo
  exact h.travel (by rw [hshows]; simp) count

/-- **Playing keeps a world lawful**, whatever is played. -/
theorem play (h : w.Lawful walkable) (hfloor : ∀ c ∈ w.floor, walkable c) (p : Play) :
    (w.apply p.command).1.Lawful walkable := by
  rcases w.apply_play_cases p with
    hstay | ⟨d, q, -, hplan, hmove⟩ | ⟨a, history, -, hundo, htravel⟩ |
      ⟨a, history, -, hredo, htravel⟩
  · rwa [hstay]
  · rw [hmove]
    exact h.commit hfloor hplan
  · rw [htravel]
    exact h.undo hundo _
  · rw [htravel]
    exact h.redo hredo _

end Lawful

end World

end MolePuzzle
