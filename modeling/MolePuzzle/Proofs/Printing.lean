import MolePuzzle.Cli.Run
import MolePuzzle.Proofs.Result

/-!
# Printing comes last

A request is carried out in steps, of which some can fail and others print.  Nothing in the way they
are put together keeps a request from failing after it has printed something.  That none does is
due to the order of the steps in each action: an action can be worked out to its end, which is a
text to print or a level to save (`Cli.reply`), before anything is printed or saved
(`Cli.Action.perform_eq`).

Only the levels of the catalog are listed line by line, and each is opened just before its line is
printed.  As all of them can be opened (`Cli.catalogText_eq`), the lines could as well be printed
together in the end.
-/

set_option autoImplicit false

namespace MolePuzzle.Cli

variable {α β : Type} {d d' : Disk} {settings : Settings}

/-! ## Steps -/

theorem run_onDisk (work : Disk → Disk × Except Failure α) (sh : Shell) :
    (onDisk work).run.run sh = ((work sh.disk).2, { sh with disk := (work sh.disk).1 }) := rfl

theorem run_consult (find : Disk → Except Failure α) (sh : Shell) :
    (consult find).run.run sh = (find sh.disk, sh) := rfl

theorem Job.run_bind (job : Job α) (next : α → Job β) (sh : Shell) :
    (job >>= next).run.run sh =
      match job.run.run sh with
      | (.error failure, sh) => (.error failure, sh)
      | (.ok a, sh) => (next a).run.run sh := by
  show (match job.run.run sh with
    | (r, sh) => (ExceptT.bindCont next r).run sh) = _
  rcases job.run.run sh with ⟨r, after⟩
  cases r with
  | error failure => rfl
  | ok a => rfl

/-- What is worked out from what has been found out is found out as well. -/
@[simp] theorem consult_bind (find : Disk → Except Failure α) (next : α → Disk → Except Failure β) :
    (consult fun d ↦ find d >>= fun a ↦ next a d) = consult find >>= fun a ↦ consult (next a) := by
  refine funext fun sh ↦ ?_
  show (consult fun d ↦ find d >>= fun a ↦ next a d).run.run sh =
    (consult find >>= fun a ↦ consult (next a)).run.run sh
  rw [Job.run_bind, run_consult, run_consult]
  cases hfind : find sh.disk with
  | error failure => rfl
  | ok a => exact (run_consult (next a) sh).symm

@[simp] theorem consult_pure (a : α) : (consult fun _ ↦ pure a) = pure a := rfl

@[simp] theorem consult_map (f : α → β) (find : Disk → Except Failure α) :
    (consult fun d ↦ f <$> find d) = f <$> consult find := by
  simp only [← bind_pure_comp, consult_bind, consult_pure]

@[simp] theorem ofExcept_eq_consult (r : Except Failure α) :
    (ofExcept r : Job α) = consult fun _ ↦ r := by
  cases r <;> rfl

theorem print_append (text text' : String) :
    print (text ++ text') = print text >>= fun _ ↦ print text' := by
  refine funext fun sh ↦ ?_
  show (Except.ok (), { sh with printed := sh.printed ++ (text ++ text') }) =
    (Except.ok (), { sh with printed := sh.printed ++ text ++ text' })
  rw [String.append_assoc]

theorem print_empty : print "" = pure () := by
  refine funext fun sh ↦ ?_
  show (Except.ok (), { sh with printed := sh.printed ++ "" }) = (Except.ok (), sh)
  rw [String.append_empty]

/-- If all lines are there, printing them one by one is printing them together. -/
theorem forM_print {items : List α} {line : α → Except Failure String} {lines : List String}
    (h : items.mapM line = .ok lines) :
    (items.forM fun a ↦ do print (← ofExcept (line a))) = print (String.join lines) := by
  rw [List.forM_eq_forM]
  induction items generalizing lines with
  | nil =>
    cases h
    exact print_empty.symm
  | cons a rest ih =>
    rw [List.mapM_cons, bind_eq_ok_iff] at h
    obtain ⟨first, hfirst, h⟩ := h
    rw [bind_eq_ok_iff] at h
    obtain ⟨later, hlater, h⟩ := h
    cases h
    rw [List.forM_cons, ih hlater, String.join_cons, print_append, hfirst]
    rfl

/-! ## Replies -/

/-- What an action comes to: a text to print, or a level to save. -/
inductive Reply where
  | text (text : String)
  | level (w : World) (target : Target)

/-- Prints or saves what an action came to. -/
def Reply.give (settings : Settings) : Reply → Job Unit
  | .text shown => print shown
  | .level w target => saveLevel settings w target

@[simp] theorem Reply.give_text (text : String) :
    (Reply.text text).give settings = print text := rfl

@[simp] theorem Reply.give_level (w : World) (target : Target) :
    (Reply.level w target).give settings = saveLevel settings w target := rfl

/-- The reply that saves a world, or prints its text if no target is given. -/
def levelReply (w : World) : Option Target → Reply
  | none => .text (levelText w)
  | some target => .level w target

/-- The reply that saves a world, if it may be saved as it is. -/
def checkedReply (w : World) : Option Target → Except Failure Reply
  | none => return levelReply w none
  | some target => do
    checkLevel w target
    return levelReply w (some target)

/-- The lines about the levels of the catalog. -/
def catalogText : Except Failure String := do
  let lines ← Catalog.numbers.mapM fun number ↦ do
    let w ← (Catalog.load number).mapError .catalog
    return catalogLine number w
  return String.join lines

/-- **All levels of the catalog can be opened.** -/
theorem catalogText_eq :
    catalogText = .ok "1: 6x3, 1 boxes\n2: 7x7, 2 boxes\n3: 7x5, 2 boxes\n" := by
  rfl

/-- What an action comes to, found out without printing or saving anything. -/
def reply (d : Disk) : Action → Except Failure Reply
  | .play source moves => do
    let w ← openLevel d source
    let commands ← (Script.moves moves).mapError .script
    return .text (playReport w commands)
  | .display source => do
    let w ← openLevel d source
    return .text (levelText w)
  | .save source target => do
    let w ← openLevel d source
    checkedReply w (some target)
  | .share source => do
    let w ← openLevel d source
    return .text (String.ofList (ShareCode.encode ⟨w.field.size, w.bytes⟩) ++ "\n")
  | .unshare code target => do
    let shared ← (ShareCode.decode code).mapError .share
    let w ← (World.ofBytes shared.bytes).mapError .sharedLevel
    return levelReply w target
  | .validate source => do
    let w ← openLevel d source
    w.validate.mapError (.notPlayable w.name)
    return .text ("level '" ++ w.name ++ "' is playable\n")
  | .levels => do
    let text ← catalogText
    return .text text
  | .edit source resize strokes target => do
    let w ← editLevel d source resize strokes
    checkedReply w target

/-- The levels are listed as if all of them had been opened before the first line is printed. -/
theorem listLevels_eq : listLevels = ofExcept catalogText >>= print := by
  obtain ⟨lines, hlines, htext⟩ := bind_eq_ok_iff.mp catalogText_eq
  rw [catalogText_eq, ← htext]
  refine Eq.trans ?_ (forM_print hlines)
  simp [listLevels]

/-- **Printing comes last.**  To carry out an action is to find out what it comes to, and only then
to print it or to save it. -/
theorem Action.perform_eq (settings : Settings) (action : Action) :
    action.perform settings = consult (reply · action) >>= Reply.give settings := by
  -- The steps that find something out are joined into one by `consult_bind`.
  cases action with
  | play source moves => simp [perform, reply]
  | display source => simp [perform, reply]
  | save source target => simp [perform, reply, saveChecked, checkedReply, levelReply]
  | share source => simp [perform, reply]
  | unshare code target =>
    cases target with
    | none => simp [perform, reply, levelReply]
    | some target => simp [perform, reply, levelReply]
  | validate source => simp [perform, reply]
  | levels => simp [perform, reply, listLevels_eq]
  | edit source resize strokes target =>
    cases target with
    | none => simp [perform, reply, checkedReply, levelReply]
    | some target => simp [perform, reply, saveChecked, checkedReply, levelReply]

/-! ## Requests -/

theorem outcome_consult_bind (find : Disk → Except Failure α) (next : α → Job Unit) (d : Disk) :
    (consult find >>= next).outcome d =
      match find d with
      | .error failure => (.failed failure "", d)
      | .ok a => (next a).outcome d := by
  rw [Job.outcome, Job.run_bind, run_consult]
  cases find d with
  | error failure => rfl
  | ok a => rfl

@[simp] theorem outcome_print (text : String) (d : Disk) :
    (print text).outcome d = (.printed text, d) := by
  show (Outcome.printed ("" ++ text), d) = (.printed text, d)
  rw [String.empty_append]

theorem outcome_saveLevel (w : World) (target : Target) (d : Disk) :
    (saveLevel settings w target).outcome d =
      match LevelFile.save d (settings.resolve target.path) w.bytes target.overwrite with
      | (d, .error e) => (.failed (.save e) "", d)
      | (d, .ok written) => (.printed ("saved " ++ written.string ++ "\n"), d) := by
  rw [Job.outcome, saveLevel, Job.run_bind, run_onDisk]
  dsimp only
  rcases LevelFile.save d (settings.resolve target.path) w.bytes target.overwrite with ⟨d', result⟩
  cases result with
  | error e => rfl
  | ok written => exact outcome_print _ d'

/-- **How a request comes out.**  It fails with nothing printed if the settings cannot be read or
the action cannot be worked out, and otherwise what the action came to is printed or saved. -/
theorem Request.run_eq (r : Request) (d : Disk) :
    r.run d =
      match Settings.load d r.config with
      | .error e => (.failed (.settings e) "", d)
      | .ok settings =>
        match reply d r.action with
        | .error failure => (.failed failure "", d)
        | .ok given => (given.give settings).outcome d := by
  rw [run, perform, outcome_consult_bind]
  cases Settings.load d r.config with
  | error e => rfl
  | ok settings =>
    show (r.action.perform settings).outcome d = _
    rw [Action.perform_eq, outcome_consult_bind]
    cases reply d r.action <;> rfl

/-- A request that succeeds has printed or saved what its action came to. -/
theorem Request.exists_reply_of_run {r : Request} {printed : String}
    (h : r.run d = (.printed printed, d')) :
    ∃ settings given, Settings.load d r.config = .ok settings ∧ reply d r.action = .ok given ∧
      (given.give settings).outcome d = (.printed printed, d') := by
  rw [run_eq] at h
  split at h
  · cases h
  · rename_i settings hsettings
    split at h
    · cases h
    · rename_i given hreply
      exact ⟨settings, given, hsettings, hreply, h⟩

/-- What is neither printed nor saved is a level whose file was refused. -/
theorem Reply.exists_failed_of_give {given : Reply} {outcome : Outcome}
    (h : (given.give settings).outcome d = (outcome, d')) (hcode : outcome.code ≠ 0) :
    ∃ path bytes overwrite e, LevelFile.save d path bytes overwrite = (d', .error e) ∧
      outcome = .failed (.save e) "" := by
  cases given with
  | text shown =>
    rw [give_text, outcome_print] at h
    cases h
    exact absurd rfl hcode
  | level w target =>
    rw [give_level, outcome_saveLevel] at h
    split at h
    · rename_i hsave
      cases h
      exact ⟨_, _, _, _, hsave, rfl⟩
    · cases h
      exact absurd rfl hcode

/-- **A request that fails has printed nothing**, and it has not touched the disk either, unless it
failed in saving. -/
theorem Request.exists_failed_of_run {r : Request} {outcome : Outcome}
    (h : r.run d = (outcome, d')) (hcode : outcome.code ≠ 0) :
    ∃ failure, outcome = .failed failure "" ∧
      (d' = d ∨ ∃ path bytes overwrite e,
        LevelFile.save d path bytes overwrite = (d', .error e) ∧ failure = .save e) := by
  rw [run_eq] at h
  split at h
  · cases h
    exact ⟨_, rfl, .inl rfl⟩
  · split at h
    · cases h
      exact ⟨_, rfl, .inl rfl⟩
    · obtain ⟨path, bytes, overwrite, e, hsave, rfl⟩ := Reply.exists_failed_of_give h hcode
      exact ⟨.save e, rfl, .inr ⟨path, bytes, overwrite, e, hsave, rfl⟩⟩

/-- Steps in another order could print and then fail. -/
example : (print "1: " >>= fun _ ↦ ofExcept (.error .noSource)).outcome {} =
    (.failed .noSource "1: ", {}) := rfl

end MolePuzzle.Cli
