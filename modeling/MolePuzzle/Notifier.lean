import MolePuzzle.World.Basic

/-!
# Notifying listeners

A notifier holds listeners for three kinds of events: changes of the field's size, moves of the
mole, and the level being solved.  It delivers events one after another, each to the listeners of
its kind in the order in which they were registered.  Nobody listens to the loading of a level as
such.

What a listener does is an action of some monad, so a test can let them write a log and a command
line can let them remember the last event.
-/

set_option autoImplicit false

namespace MolePuzzle

/-- The registered listeners of each kind. -/
structure Notifier (m : Type → Type) where
  /-- They hear the sizes before and after. -/
  sizeListeners : List (Size → Size → m Unit) := []
  /-- They hear the move. -/
  moleListeners : List (MoleMove → m Unit) := []
  /-- They hear the count of steps. -/
  winListeners : List (Nat → m Unit) := []

namespace Notifier

variable {m : Type → Type}

/-- Registers a listener for changes of the field's size. -/
def onResize (n : Notifier m) (listener : Size → Size → m Unit) : Notifier m :=
  { n with sizeListeners := n.sizeListeners ++ [listener] }

/-- Registers a listener for moves of the mole, those taken back and made again included. -/
def onMove (n : Notifier m) (listener : MoleMove → m Unit) : Notifier m :=
  { n with moleListeners := n.moleListeners ++ [listener] }

/-- Registers a listener for the level being solved. -/
def onSolved (n : Notifier m) (listener : Nat → m Unit) : Notifier m :=
  { n with winListeners := n.winListeners ++ [listener] }

/-- The calls that an event leads to, in their order. -/
def calls (n : Notifier m) : Event → List (m Unit)
  | .fieldResized before after => n.sizeListeners.map (· before after)
  | .moleMoved move => n.moleListeners.map (· move)
  | .solved steps => n.winListeners.map (· steps)
  | .levelLoaded _ => []

/-- Delivers events in their order. -/
def dispatch [Monad m] (n : Notifier m) (events : List Event) : m Unit :=
  (events.flatMap n.calls).forM id

/-- A summary of the registered listeners. -/
def summary (n : Notifier m) : String :=
  "Notifier \x7b size_listeners: " ++ toString n.sizeListeners.length ++
    ", mole_listeners: " ++ toString n.moleListeners.length ++
    ", win_listeners: " ++ toString n.winListeners.length ++ " \x7d"

end Notifier

end MolePuzzle
