import Logo.Proofs.Interpreter.Script

/-!
# The control commands and their scripts

Each of the four control commands runs the blocks of its script. A block that leaves ends the
command with the same flow, unless it is a condition of an `if`: there only the value counts, and
the command goes on.
-/

namespace Logo

variable {σ : Type}

/-! ## Scripts of branches and loops -/

/-- The script of the branches of an `if`. -/
def Branch.script (effort : ℕ) (frame : FrameId) : List Branch → Script
  | [] => .finish (.next none)
  | branch :: rest =>
    let go (taken : Bool) : Script :=
      if taken then .block .body branch.body none .finish else script effort frame rest
    match branch.condition with
    | none => go true
    | some (.word text) =>
      .ask ⟨effort, frame, text⟩ fun v => go v.truthy
    | some (.value (.code code)) => .block .condition code none fun flow => go flow.truthy
    | some (.value v) => go v.truthy

/-- The script of a block that runs as long as another one has a true value. -/
def whileScript (condition body : Code) : (rounds : ℕ) → Script
  | 0 => .exhausted
  | rounds + 1 =>
    .block .condition condition none fun flow =>
      if flow.isLeave then .finish flow
      else if flow.truthy then
        .block .body body none fun flow =>
          if flow.isLeave then .finish flow else whileScript condition body rounds
      else .finish (.next none)

/-- The script of a block that runs for each number from `counter` on that is below `limit`. -/
def countScript (limit : Float) (name : String) (body : Code) :
    (rounds : ℕ) → (counter : Float) → Script
  | 0, _ => .exhausted
  | rounds + 1, counter =>
    if counter < limit then
      .block .body body (some [(name, .number counter)]) fun flow =>
        if flow.isLeave then .finish flow else countScript limit name body rounds (counter + 1.0)
    else .finish (.next none)

/-- The script of a block that runs for each of some values. -/
def eachScript (name : String) (body : Code) : List Value → Script
  | [] => .finish (.next none)
  | v :: rest =>
    .block .body body (some [(name, v)]) fun flow =>
      if flow.isLeave then .finish flow else eachScript name body rest

/-- The commands of the language that run blocks. -/
inductive Control where
  | ifElse
  | whileTrue
  | repeatTimes
  | eachItem
deriving DecidableEq

namespace Control

/-- The command itself. -/
def command : Control → Command σ
  | ifElse => Command.ifElse
  | whileTrue => Command.whileTrue
  | repeatTimes => Command.repeatTimes
  | eachItem => Command.eachItem

/-- The script of a control command on its arguments. -/
def script (c : Control) (effort : ℕ) (settings : Settings) (frame : FrameId)
    (arguments : List Actual) : Script :=
  match c with
  | ifElse =>
    match Branch.read arguments with
    | .error f => .fail f
    | .ok branches => Branch.script effort frame branches
  | whileTrue =>
    match Actual.codeAt arguments 0, Actual.codeAt arguments 1 with
    | .ok condition, .ok body => whileScript condition body effort
    | .error f, _ | _, .error f => .fail f
  | repeatTimes =>
    let (name, rest) := Command.loopName settings.loopVariable arguments
    match Actual.codeAt arguments (arguments.length - 1) with
    | .error f => .fail f
    | .ok body => countScript (Number.floor (Actual.numberAt rest 0)) name body effort 0.0
  | eachItem =>
    let (name, rest) := Command.loopName settings.eachVariable arguments
    match Actual.codeAt arguments (arguments.length - 1) with
    | .error f => .fail f
    | .ok body =>
      match Command.eachItems rest.head? with
      | .error f => .fail f
      | .ok items => eachScript name body items

end Control

/-! ## The commands run their scripts -/

variable {runner : Runner σ} {frame : FrameId}

/-- The branches of an `if` are run as their script says. -/
theorem runBranches_eq_run (branches : List Branch) :
    runBranches runner frame branches =
      (Branch.script runner.effort frame branches).run runner.invoke := by
  induction branches with
  | nil => rfl
  | cons branch rest ih =>
    rcases hcondition : branch.condition with _ | text | v
    · simp [runBranches, Branch.script, hcondition, Script.run]
    · simp [runBranches, Branch.script, hcondition, Script.run, Question.answer, holds, ih]
    · cases v with
      | code code => simp [runBranches, Branch.script, hcondition, Script.run, holds, ih]
      | number | array | object =>
        simp [runBranches, Branch.script, hcondition, Script.run, holds, ih]

/-- The rounds of a `while` are run as their script says. -/
theorem whileLoop_eq_run (condition body : Code) (rounds : ℕ) :
    whileLoop (runner.invoke condition none false) (runner.invoke body none false) rounds =
      (whileScript condition body rounds).run runner.invoke := by
  induction rounds with
  | zero => rfl
  | succ rounds ih => simp [whileLoop, whileScript, Script.run, proceed, ih]

/-- The rounds of a `repeat` are run as their script says. -/
theorem countLoop_eq_run (limit : Float) (name : String) (body : Code) (rounds : ℕ)
    (counter : Float) :
    countLoop limit (fun counter => runner.invoke body (some [(name, .number counter)]) false)
        rounds counter =
      (countScript limit name body rounds counter).run runner.invoke := by
  induction rounds generalizing counter with
  | zero => rfl
  | succ rounds ih => simp [countLoop, countScript, Script.run, proceed, ih]

/-- The rounds of an `each` are run as their script says. -/
theorem eachLoop_eq_run (name : String) (body : Code) (items : List Value) :
    eachLoop (fun v => runner.invoke body (some [(name, v)]) false) items =
      (eachScript name body items).run runner.invoke := by
  induction items with
  | nil => rfl
  | cons v rest ih => simp [eachLoop, eachScript, Script.run, ih]

/-- A control command runs its script. -/
theorem Control.handler_run (c : Control) (runner : Runner σ) (frame : FrameId)
    (arguments : List Actual) :
    (c.command.handler : Handler σ).run runner frame arguments =
      (c.script runner.effort runner.settings frame arguments).run runner.invoke := by
  cases c with
  | ifElse =>
    simp only [command, Command.ifElse, Handler.run, script]
    cases Branch.read arguments with
    | error f => rfl
    | ok branches => exact runBranches_eq_run branches
  | whileTrue =>
    simp only [command, Command.whileTrue, Handler.run, script]
    rcases Actual.codeAt arguments 0 with f | condition
    · rfl
    · rcases Actual.codeAt arguments 1 with f | body
      · rfl
      · exact whileLoop_eq_run condition body runner.effort
  | repeatTimes =>
    simp only [command, Command.repeatTimes, Handler.run, script]
    cases Actual.codeAt arguments (arguments.length - 1) with
    | error f => rfl
    | ok body => exact countLoop_eq_run _ _ body runner.effort 0.0
  | eachItem =>
    simp only [command, Command.eachItem, Handler.run, script]
    cases Actual.codeAt arguments (arguments.length - 1) with
    | error f => rfl
    | ok body =>
      dsimp only
      cases Command.eachItems (Command.loopName runner.settings.eachVariable arguments).2.head? with
      | error f => rfl
      | ok items => exact eachLoop_eq_run _ body items

/-! ## Blocks that leave -/

/-- What is true of all ways in which the branches of an `if` can go on is true of its script. After
a condition that is a block, only the truth of its value counts. -/
theorem Branch.script_induction {P : Script → Prop} (hfinish : P (.finish (.next none)))
    (hbody : ∀ code, P (.block .body code none .finish))
    (hask : ∀ question next, (∀ v, P (next v)) → P (.ask question next))
    (hcondition : ∀ code (go : Bool → Script), (∀ taken, P (go taken)) →
      P (.block .condition code none fun flow => go flow.truthy))
    (effort : ℕ) (frame : FrameId) (branches : List Branch) :
    P (script effort frame branches) := by
  induction branches with
  | nil => exact hfinish
  | cons branch rest ih =>
    have hgo (taken : Bool) : P (if taken then
        .block .body branch.body none .finish else script effort frame rest) := by
      cases taken with
      | false => exact ih
      | true => exact hbody branch.body
    unfold script
    rcases branch.condition with _ | text | v
    · exact hgo true
    · exact hask _ _ fun v => hgo v.truthy
    · cases v with
      | code code => exact hcondition code _ hgo
      | number | array | object => exact hgo _

/-- An `if` leaves when one of its bodies has left, but not when a condition has. -/
theorem Branch.script_forwards (effort : ℕ) (frame : FrameId) (branches : List Branch) :
    (script effort frame branches).Forwards (· = .body) := by
  refine script_induction (P := Script.Forwards _) trivial ?_ (fun _ _ h => h) ?_ effort frame
    branches
  · exact fun _ => ⟨fun _ _ => rfl, fun _ => trivial⟩
  · exact fun _ _ h => ⟨by simp, fun _ => h _⟩

/-- A condition of an `if` that leaves does not make the `if` leave. -/
theorem Branch.script_absorbs (effort : ℕ) (frame : FrameId) (branches : List Branch) :
    (script effort frame branches).Absorbs (· = .condition) := by
  have h : (script effort frame branches).Absorbs (· = .condition) ∧
      (script effort frame branches).Stays := by
    refine script_induction (P := fun s => s.Absorbs (· = .condition) ∧ s.Stays) ⟨trivial, rfl⟩
      ?_ ?_ ?_ effort frame branches
    · exact fun _ => ⟨⟨by simp, fun _ => trivial⟩, trivial⟩
    · exact fun _ _ h => ⟨fun v => (h v).1, fun v => (h v).2⟩
    · exact fun _ _ h => ⟨⟨fun _ _ => (h _).2, fun _ => (h _).1⟩, trivial⟩
  exact h.1

/-- A block of a loop, after which the loop ends if the block has left. -/
private theorem forwards_loop {roles : Role → Prop} {role : Role} {code : Code}
    {bindings : Option Bindings} {next : Flow → Script} (h : ∀ flow, (next flow).Forwards roles) :
    (Script.block role code bindings fun flow =>
      if flow.isLeave then .finish flow else next flow).Forwards roles := by
  refine ⟨fun _ _ => rfl, fun flow => ?_⟩
  cases flow with
  | next v => exact h (.next v)
  | leave v => trivial

/-- A `while` leaves when any block of it has left. -/
theorem whileScript_forwards (roles : Role → Prop) (condition body : Code) (rounds : ℕ) :
    (whileScript condition body rounds).Forwards roles := by
  induction rounds with
  | zero => trivial
  | succ rounds ih =>
    refine forwards_loop fun flow => ?_
    split
    · exact forwards_loop fun _ => ih
    · trivial

/-- A `repeat` leaves when any block of it has left. -/
theorem countScript_forwards (roles : Role → Prop) (limit : Float) (name : String) (body : Code)
    (rounds : ℕ) (counter : Float) :
    (countScript limit name body rounds counter).Forwards roles := by
  induction rounds generalizing counter with
  | zero => trivial
  | succ rounds ih =>
    unfold countScript
    split
    · exact forwards_loop fun _ => ih (counter + 1.0)
    · trivial

/-- An `each` leaves when any block of it has left. -/
theorem eachScript_forwards (roles : Role → Prop) (name : String) (body : Code)
    (items : List Value) : (eachScript name body items).Forwards roles := by
  induction items with
  | nil => trivial
  | cons v rest ih => exact forwards_loop fun _ => ih

namespace Control

/-- Whether a command leaves when a block of a role has left. -/
def Forwards (c : Control) (role : Role) : Prop := ¬(c = .ifElse ∧ role = .condition)

instance (c : Control) (role : Role) : Decidable (c.Forwards role) :=
  inferInstanceAs (Decidable (¬_))

/-- Each control command leaves when a block has left, but for the conditions of an `if`. -/
theorem script_forwards (c : Control) (effort : ℕ) (settings : Settings) (frame : FrameId)
    (arguments : List Actual) :
    (c.script effort settings frame arguments).Forwards c.Forwards := by
  cases c with
  | ifElse =>
    have hroles : Forwards .ifElse = (· = .body) := by
      funext role
      cases role <;> simp [Forwards]
    simp only [script, hroles]
    split
    · trivial
    · exact Branch.script_forwards _ _ _
  | whileTrue =>
    simp only [script]
    split
    · exact whileScript_forwards _ _ _ _
    · trivial
    · trivial
  | repeatTimes =>
    simp only [script]
    split
    · trivial
    · exact countScript_forwards _ _ _ _ _ _
  | eachItem =>
    simp only [script]
    split
    · trivial
    · split
      · trivial
      · exact eachScript_forwards _ _ _ _

/-- A block that leaves is the last one that its command runs, and makes the command leave, if and
only if it is not a condition of an `if`. -/
theorem leave_iff_forwards (c : Control) {runner : Runner σ} {frame : FrameId}
    {arguments : List Actual} {m m' : Machine σ} {before after : List (Call σ)} {call : Call σ}
    {v : Option Value}
    (h : (c.script runner.effort runner.settings frame arguments).calls runner.invoke m =
      before ++ call :: after)
    (houtcome : call.outcome = some (.ok (.leave v), m')) :
    (after = [] ∧
      ((c.command.handler : Handler σ).run runner frame arguments).apply m =
        some (.ok (.leave v), m')) ↔ c.Forwards call.role := by
  rw [handler_run]
  constructor
  · rintro hleave ⟨rfl, hrole⟩
    revert h hleave
    simp only [script]
    split
    · simp [Script.calls]
    · exact fun h hleave =>
        (Branch.script_absorbs _ _ _).not_run_of_leave h hrole houtcome hleave
  · exact fun hrole => (c.script_forwards _ _ _ _).run_of_leave h hrole houtcome

end Control

end Logo
