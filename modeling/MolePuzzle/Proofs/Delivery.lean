import Mathlib.Data.List.Nodup
import MolePuzzle.Notifier

/-!
# Delivery of events

What a notifier does can be followed call by call, if every listener has a name and writes it into a
log, with what it is told, before it does whatever it does.  `Notifier.deliver_exact` describes the
log by the events alone: for each of them in turn there is one call to each listener of its kind, in
the order in which the listeners were registered, and there are no other calls.

The notifier keeps three lists of listeners, one for each kind, and is handed the events in batches.
Neither can be seen in the log.
-/

set_option autoImplicit false

namespace MolePuzzle

/-! ## Listeners -/

namespace Notifier

/-- What a listener can listen for. -/
inductive Kind where
  | size
  | mole
  | win
  deriving DecidableEq, Repr

/-- What a listener is told. -/
inductive Notice where
  | resized (before after : Size)
  | moved (move : MoleMove)
  | solved (steps : Nat)
  deriving DecidableEq, Repr

/-- Which listeners are told it. -/
def Notice.kind : Notice → Kind
  | resized _ _ => .size
  | moved _ => .mole
  | solved _ => .win

/-- What there is to tell of an event. -/
def notice? : Event → Option Notice
  | .fieldResized before after => some (.resized before after)
  | .moleMoved move => some (.moved move)
  | .solved steps => some (.solved steps)
  | .levelLoaded _ => none

/-- A listener with a name.  What it does may depend on all that it is told, and on what it and
others have done before. -/
structure Listener (ι : Type) (m : Type → Type) where
  /-- Tells it from others in the log. -/
  name : ι
  /-- What it listens for. -/
  kind : Kind
  /-- What it does when it is told something. -/
  act : Notice → m Unit

/-- The calls of listeners, in their order. -/
abbrev Log (ι : Type) := List (ι × Notice)

variable {ι : Type} {m : Type → Type}

/-- What the listener is told of an event: nothing, unless it listens for events of this kind. -/
def Listener.told? (l : Listener ι m) (e : Event) : Option Notice :=
  (notice? e).filter fun notice ↦ l.kind = notice.kind

section

variable [Monad m]

/-- Writes the call into the log, and does what the listener does. -/
def Listener.hear (l : Listener ι m) (notice : Notice) : StateT (Log ι) m Unit := do
  modify (· ++ [(l.name, notice)])
  l.act notice

/-- Registers a listener for the events of its kind. -/
def register (n : Notifier (StateT (Log ι) m)) (l : Listener ι m) :
    Notifier (StateT (Log ι) m) :=
  match l.kind with
  | .size => n.onResize fun before after ↦ l.hear (.resized before after)
  | .mole => n.onMove fun move ↦ l.hear (.moved move)
  | .win => n.onSolved fun steps ↦ l.hear (.solved steps)

/-- The notifier with which listeners have been registered, one after another. -/
def registered (listeners : List (Listener ι m)) : Notifier (StateT (Log ι) m) :=
  listeners.foldl register {}

/-- Delivers batches of events to listeners, one after another. -/
def deliver (listeners : List (Listener ι m)) (batches : List (List Event)) :
    StateT (Log ι) m Unit :=
  batches.forM (registered listeners).dispatch

end

/-- The calls that are due to an event: one to each listener of its kind, in the order of
registration, with what there is to tell. -/
def dueTo (listeners : List (Listener ι m)) (e : Event) : List (Listener ι m × Notice) :=
  listeners.filterMap fun l ↦ (l.told? e).map (l, ·)

/-- The calls that are due to events, in the order of the events. -/
def due (listeners : List (Listener ι m)) (events : List Event) : List (Listener ι m × Notice) :=
  events.flatMap (dueTo listeners)

/-- How a call is written into the log. -/
def logged (call : Listener ι m × Notice) : ι × Notice := (call.1.name, call.2)

/-- What a listener has been told, of all that has been written into the log. -/
def toldTo [DecidableEq ι] (name : ι) (log : Log ι) : List Notice :=
  log.filterMap fun entry ↦ if entry.1 = name then some entry.2 else none

/-! ## What is due -/

variable {listeners listeners' : List (Listener ι m)} {l : Listener ι m}

theorem dueTo_cons (l : Listener ι m) (listeners : List (Listener ι m)) (e : Event) :
    dueTo (l :: listeners) e = ((l.told? e).map (l, ·)).toList ++ dueTo listeners e := by
  rw [dueTo, List.filterMap_cons]
  cases l.told? e <;> rfl

/-- Only the listeners of one kind count. -/
theorem dueTo_eq (listeners : List (Listener ι m)) (e : Event) :
    dueTo listeners e = match notice? e with
      | none => []
      | some notice => (listeners.filter (·.kind = notice.kind)).map (·, notice) := by
  induction listeners with
  | nil => cases notice? e <;> rfl
  | cons l rest ih =>
    rw [dueTo_cons, ih, Listener.told?]
    cases notice? e with
    | none => rfl
    | some notice => by_cases hkind : l.kind = notice.kind <;> simp [Option.filter, hkind]

/-- **Listeners of different kinds** can be registered in any order. -/
theorem dueTo_congr
    (h : ∀ kind, listeners.filter (·.kind = kind) = listeners'.filter (·.kind = kind)) :
    dueTo listeners = dueTo listeners' := by
  funext e
  simp only [dueTo_eq, h]

section

variable [DecidableEq ι]

theorem toldTo_append (name : ι) (early late : Log ι) :
    toldTo name (early ++ late) = toldTo name early ++ toldTo name late := List.filterMap_append

theorem toldTo_dueTo_of_not_mem {name : ι} (h : name ∉ listeners.map Listener.name) (e : Event) :
    toldTo name ((dueTo listeners e).map logged) = [] := by
  refine List.filterMap_eq_nil_iff.mpr fun entry hentry ↦ if_neg ?_
  rintro rfl
  obtain ⟨call, hcall, rfl⟩ := List.mem_map.mp hentry
  obtain ⟨l, hl, hl'⟩ := List.mem_filterMap.mp hcall
  obtain ⟨notice, -, rfl⟩ := Option.map_eq_some_iff.mp hl'
  exact h (List.mem_map_of_mem hl)

/-- **A listener is told of an event once**, or not at all. -/
theorem toldTo_dueTo (hnames : (listeners.map Listener.name).Nodup) (hl : l ∈ listeners)
    (e : Event) : toldTo l.name ((dueTo listeners e).map logged) = (l.told? e).toList := by
  induction listeners with
  | nil => exact absurd hl List.not_mem_nil
  | cons first rest ih =>
    obtain ⟨hfirst, hrest⟩ := List.nodup_cons.mp hnames
    rw [dueTo_cons, List.map_append, toldTo_append]
    rcases List.mem_cons.mp hl with rfl | hl
    · rw [toldTo_dueTo_of_not_mem hfirst, List.append_nil]
      cases l.told? e <;> simp [toldTo, logged]
    · have hne : first.name ≠ l.name := fun h ↦ hfirst (h ▸ List.mem_map_of_mem hl)
      rw [ih hrest hl]
      cases first.told? e <;> simp [toldTo, logged, hne]

/-- **A listener is told what it listens for**, and nothing else. -/
theorem toldTo_due (hnames : (listeners.map Listener.name).Nodup) (hl : l ∈ listeners)
    (events : List Event) :
    toldTo l.name ((due listeners events).map logged) = events.filterMap l.told? := by
  induction events with
  | nil => rfl
  | cons e rest ih =>
    rw [due, List.flatMap_cons, List.map_append, toldTo_append, toldTo_dueTo hnames hl, ← due, ih,
      List.filterMap_cons]
    cases l.told? e <;> rfl

end

/-! ## From registering to calling -/

section

variable [Monad m]

/-- **One listener more** is called after the others. -/
theorem calls_register (n : Notifier (StateT (Log ι) m)) (l : Listener ι m) (e : Event) :
    (n.register l).calls e = n.calls e ++ ((l.told? e).map l.hear).toList := by
  obtain ⟨name, kind, act⟩ := l
  cases e with
  | fieldResized before after =>
    cases kind with
    | size => exact List.map_append
    | mole | win => exact (List.append_nil _).symm
  | moleMoved move =>
    cases kind with
    | mole => exact List.map_append
    | size | win => exact (List.append_nil _).symm
  | solved steps =>
    cases kind with
    | win => exact List.map_append
    | size | mole => exact (List.append_nil _).symm
  | levelLoaded size => cases kind <;> rfl

theorem calls_foldl_register (n : Notifier (StateT (Log ι) m)) (listeners : List (Listener ι m))
    (e : Event) : (listeners.foldl register n).calls e =
      n.calls e ++ (dueTo listeners e).map fun call ↦ call.1.hear call.2 := by
  induction listeners generalizing n with
  | nil => simp [dueTo]
  | cons l rest ih =>
    rw [List.foldl_cons, ih, calls_register, List.append_assoc, dueTo_cons, List.map_append]
    cases l.told? e <;> rfl

/-- **All listeners** are called in the order in which they were registered. -/
theorem calls_registered (listeners : List (Listener ι m)) (e : Event) :
    (registered listeners).calls e = (dueTo listeners e).map fun call ↦ call.1.hear call.2 := by
  have hnone : ({} : Notifier (StateT (Log ι) m)).calls e = [] := by cases e <;> rfl
  rw [registered, calls_foldl_register, hnone, List.nil_append]

end

/-! ## Dispatching -/

section

variable [Monad m] [LawfulMonad m]

theorem forM_flatMap {α β : Type} (f : α → List β) (act : β → m Unit) (l : List α) :
    (l.flatMap f).forM act = l.forM fun a ↦ (f a).forM act := by
  induction l with
  | nil => rfl
  | cons a rest ih =>
    rw [List.flatMap_cons]
    simp only [List.forM_eq_forM] at ih ⊢
    rw [List.forM_append, List.forM_cons, ih]

/-- **Batches** are delivered like the events in them. -/
theorem deliver_eq_dispatch_flatten (listeners : List (Listener ι m))
    (batches : List (List Event)) :
    deliver listeners batches = (registered listeners).dispatch batches.flatten := by
  rw [dispatch, List.flatten_eq_flatMap, List.flatMap_assoc, forM_flatMap]
  rfl

/-- **The calls are those that are due.** -/
theorem deliver_eq_forM_due (listeners : List (Listener ι m)) (batches : List (List Event)) :
    deliver listeners batches =
      (due listeners batches.flatten).forM fun call ↦ call.1.hear call.2 := by
  rw [deliver_eq_dispatch_flatten, dispatch, funext (calls_registered listeners),
    ← List.map_flatMap, List.forM_eq_forM, List.forM_map]
  rfl

theorem run_hear (l : Listener ι m) (notice : Notice) (log : Log ι) :
    (l.hear notice).run log = (do l.act notice; pure ((), log ++ [(l.name, notice)])) := by
  simp [Listener.hear]

/-- What calls do, and what they write into the log. -/
theorem run_forM_hear (calls : List (Listener ι m × Notice)) (log : Log ι) :
    (calls.forM fun call ↦ call.1.hear call.2).run log =
      (do calls.forM fun call ↦ call.1.act call.2
          pure ((), log ++ calls.map logged)) := by
  induction calls generalizing log with
  | nil => simp
  | cons call rest ih =>
    simp only [List.forM_eq_forM, List.forM_cons] at ih ⊢
    simp only [StateT.run_bind, run_hear, bind_assoc, pure_bind, ih, List.map_cons,
      List.append_assoc, List.singleton_append, logged]

/-- **Delivery is exact.**  Let listeners with names be registered one after another, and batches of
events be delivered to them.

* There is one call for each event and each listener of its kind, with what the event tells: the
  events in their order, and for each of them the listeners in the order of registration.  The calls
  do what the listeners do, and are written into the log after what was there.
* If the names are different, then each listener has been told of just the events of its kind, each
  of them once.
* It does not matter how the events are cut into batches.
* It does not matter how the listeners of different kinds take turns in being registered. -/
theorem deliver_exact [DecidableEq ι] (listeners : List (Listener ι m))
    (batches : List (List Event)) :
    let calls := due listeners batches.flatten
    (∀ log, (deliver listeners batches).run log =
        (do calls.forM fun call ↦ call.1.act call.2
            pure ((), log ++ calls.map logged))) ∧
      ((listeners.map Listener.name).Nodup → ∀ l ∈ listeners,
        toldTo l.name (calls.map logged) = batches.flatten.filterMap l.told?) ∧
      (∀ batches', batches'.flatten = batches.flatten →
        deliver listeners batches' = deliver listeners batches) ∧
      ∀ listeners', (∀ kind, listeners'.filter (·.kind = kind) = listeners.filter (·.kind = kind)) →
        deliver listeners' batches = deliver listeners batches := by
  intro calls
  refine ⟨fun log ↦ ?_, fun hnames l hl ↦ toldTo_due hnames hl _, fun batches' hcut ↦ ?_,
    fun listeners' hkinds ↦ ?_⟩
  · rw [deliver_eq_forM_due, run_forM_hear]
  · rw [deliver_eq_forM_due, deliver_eq_forM_due, hcut]
  · rw [deliver_eq_forM_due, deliver_eq_forM_due, due, dueTo_congr hkinds, ← due]

/-- Four listeners count the calls.  Two batches and an empty one between them are delivered like
one, and the listener for moves can be registered before the others or after. -/
theorem deliver_exact_counting :
    let counting (name : Nat) (kind : Kind) : Listener Nat (StateM Nat) :=
      ⟨name, kind, fun _ ↦ modify (· + 1)⟩
    let wins := [counting 0 .win, counting 2 .win]
    let listeners := counting 1 .mole :: counting 3 .size :: wins
    let listeners' := wins ++ [counting 3 .size, counting 1 .mole]
    let move : MoleMove := ⟨some ⟨0, 0⟩, some ⟨1, 0⟩, none⟩
    let events : List Event := [.levelLoaded ⟨2, 1⟩, .solved 7, .moleMoved move, .solved 8]
    let log : Log Nat := [(0, .solved 7), (2, .solved 7), (1, .moved move), (0, .solved 8),
      (2, .solved 8)]
    (((deliver listeners [events]).run []).run 0 = (((), log), 5)) ∧
      (listeners.map Listener.name).Nodup ∧ toldTo 2 log = [.solved 7, .solved 8] ∧
      deliver listeners [events.take 2, [], events.drop 2] = deliver listeners [events] ∧
      deliver listeners' [events] = deliver listeners [events] := by
  intro counting wins listeners listeners' move events log
  obtain ⟨hrun, htold, hcut, hkinds⟩ := deliver_exact listeners [events]
  have hnames : (listeners.map Listener.name).Nodup := by decide
  have hmem : counting 2 .win ∈ listeners := by simp [listeners, wins]
  refine ⟨?_, hnames, htold hnames _ hmem, hcut _ rfl, hkinds _ fun kind ↦ ?_⟩
  · rw [hrun]
    rfl
  · cases kind <;> rfl

end

end Notifier

end MolePuzzle
