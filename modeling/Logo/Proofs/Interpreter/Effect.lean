import Logo.Command.Standard
import Logo.Proofs.Fault.Stage
import Logo.Proofs.Interpreter.Control

/-!
# The commands of the language

Every command of the language is a control command or does one thing at most: it ends with a flow or
a fault, sends a message, makes a variable, or sets one. Only `set` sets variables, and only `new`
and `learn` make them.
-/

namespace Logo

variable {σ : Type}

/-! ## Finding commands -/

namespace Registry

/-- A command is found under its names, and other labels are found as before. -/
theorem find?_register (r : Registry σ) (c : Command σ) (label : String) :
    (r.register c).find? label = if label ∈ c.names then some c else r.find? label := by
  have hfold (names : List String) (r : Registry σ) :
      (names.foldl (fun r name => (name, c) :: r) r).lookup label =
        if label ∈ names then some c else r.lookup label := by
    induction names generalizing r with
    | nil => rfl
    | cons name names ih =>
      rw [List.foldl_cons, ih, List.lookup_cons]
      by_cases hname : label = name
      · simp [hname]
      · simp [hname, beq_eq_false_iff_ne.mpr hname]
  exact hfold c.names r

/-- What is found among registered commands is one of them, or was there before. -/
theorem mem_of_find?_foldl {commands : List (Command σ)} {r : Registry σ} {label : String}
    {c : Command σ} (h : (commands.foldl register r).find? label = some c) :
    (c ∈ commands ∧ label ∈ c.names) ∨ r.find? label = some c := by
  induction commands generalizing r with
  | nil => exact .inr h
  | cons first rest ih =>
    rcases ih h with ⟨hmem, hlabel⟩ | hfirst
    · exact .inl ⟨List.mem_cons_of_mem _ hmem, hlabel⟩
    · rw [find?_register] at hfirst
      split at hfirst
      · next hlabel =>
        obtain rfl := Option.some.inj hfirst
        exact .inl ⟨List.mem_cons_self, hlabel⟩
      · exact .inr hfirst

/-- What the registry of the language has under a label is a command of the language with this name.
-/
theorem mem_of_find?_standard {label : String} {c : Command σ}
    (h : standard.find? label = some c) : c ∈ Command.standard ∧ label ∈ c.names := by
  rcases mem_of_find?_foldl h with hmem | hnil
  · exact hmem
  · cases hnil

end Registry

/-! ## Effects -/

/-- What a simple command does. -/
inductive Effect where
  | finish (flow : Flow)
  | fail (f : Fault)
  | send (m : Message)
  /-- Makes a variable in the current frame. -/
  | create (path : String) (v : Value)
  /-- Sets a variable. -/
  | set (path : String) (v : Value)

namespace Effect

/-- The action of an effect in a frame. -/
def run (effort : ℕ) (frame : FrameId) : Effect → Action σ Flow
  | finish flow => pure flow
  | fail f => Action.fail f
  | send m => do
    Action.publish m
    proceed
  | create path v => do
    Action.updateStore fun store => store.create effort frame path v
    proceed
  | set path v => do
    Action.updateStore fun store => store.set effort frame path v
    proceed

/-- Whether a command can have an effect on some arguments: a variable is set by `set` only, and
made by `new` and `learn` only, and what is written is an argument. A procedure is an argument that
has got parameters. A fault is one of branches or of operands. -/
def IsOf (c : Command σ) (arguments : List Actual) : Effect → Prop
  | fail f => (∃ flaw, f = .malformedBranch flaw) ∨ f.IsExpression
  | create _ v => c.names ⊆ ["new", "learn"] ∧ ∃ a ∈ arguments,
      v = a.toValue ∨ ∃ code params, a = .value (.code code) ∧ v = .code { code with params }
  | set path v => c = .set ∧ ∃ a rest, arguments = .word path :: a :: rest ∧ v = a.toValue
  | _ => True

/-- Whether a value that an effect ends with is one of some arguments. -/
def Passes (arguments : List Actual) : Effect → Prop
  | finish flow => ∀ v, flow.value? = some v → ∃ a ∈ arguments, a.toValue = v
  | _ => True

end Effect

/-- Whether a command is simple, with an effect for all arguments. -/
structure Command.Does (c : Command σ) (effect : List Actual → Effect) : Prop where
  handler_eq : c.handler = .simple fun effort frame arguments => (effect arguments).run effort frame
  isOf : ∀ arguments, (effect arguments).IsOf c arguments

namespace Command

/-- A command that does an effect is run as this effect. -/
theorem Does.handler_run {c : Command σ} {effect : List Actual → Effect} (h : c.Does effect)
    (runner : Runner σ) (frame : FrameId) (arguments : List Actual) :
    c.handler.run runner frame arguments = (effect arguments).run runner.effort frame := by
  rw [h.handler_eq]
  rfl

/-- The code at a position is one of the arguments. -/
theorem mem_of_codeAt {arguments : List Actual} {index : ℕ} {code : Code}
    (h : Actual.codeAt arguments index = .ok code) : .value (.code code) ∈ arguments := by
  unfold Actual.codeAt at h
  split at h
  · next found hfound =>
    cases h
    obtain ⟨a, ha, hcode⟩ := Option.bind_eq_some_iff.mp hfound
    obtain rfl : a = .value (.code code) := by
      rcases a with text | v
      · cases hcode
      · cases v with
        | code c => simpa [Actual.code?, Value.code?] using hcode
        | number | array | object => cases hcode
    exact List.mem_of_getElem? ha
  · cases h

/-- Missing code is a fault of branches. -/
theorem raises_codeAt (arguments : List Actual) (index : ℕ) :
    Raises (fun f => ∃ flaw, f = .malformedBranch flaw) (Actual.codeAt arguments index) := by
  unfold Actual.codeAt
  split
  · exact .ok _
  · exact Raises.error_iff.mpr ⟨_, rfl⟩

/-- A `new` makes a variable, or a member of one, from its two arguments. -/
theorem new_does : (new : Command σ).Does fun arguments =>
    match arguments with
    | .word path :: value :: _ => .create path value.toValue
    | _ => .finish (.next none) where
  handler_eq := by
    refine congrArg Handler.simple ?_
    funext effort frame arguments
    rcases arguments with _ | ⟨_ | _, _ | ⟨_, _⟩⟩
    · rfl
    · rfl
    · rfl
    · rfl
    · rfl
  isOf arguments := by
    split
    · exact ⟨by simp [names, new], _, List.mem_cons_of_mem _ List.mem_cons_self, .inl rfl⟩
    · trivial

/-- A `set` writes a variable, or a member of one, from its two arguments. -/
theorem set_does : (set : Command σ).Does fun arguments =>
    match arguments with
    | .word path :: value :: _ => .set path value.toValue
    | _ => .finish (.next none) where
  handler_eq := by
    refine congrArg Handler.simple ?_
    funext effort frame arguments
    rcases arguments with _ | ⟨_ | _, _ | ⟨_, _⟩⟩
    · rfl
    · rfl
    · rfl
    · rfl
    · rfl
  isOf arguments := by
    split
    · exact ⟨rfl, _, _, rfl, rfl⟩
    · trivial

/-- A `learn` makes a variable whose value is its last argument, with the words between as
parameters. -/
theorem learn_does : (learn : Command σ).Does fun arguments =>
    match Actual.codeAt arguments (arguments.length - 1) with
    | .error f => .fail f
    | .ok body => .create (Actual.wordAt arguments 0)
        (.code { body with params := (arguments.drop 1).dropLast.filterMap Actual.word? }) where
  handler_eq := by
    refine congrArg Handler.simple ?_
    funext effort frame arguments
    cases Actual.codeAt arguments (arguments.length - 1) with
    | error f => rfl
    | ok _ => rfl
  isOf arguments := by
    split
    · next f hf => exact .inl (raises_codeAt _ _ f hf)
    · next body hbody =>
      exact ⟨by simp [names, learn], _, mem_of_codeAt hbody, .inr ⟨body, _, rfl, rfl⟩⟩

/-- Arguments that give no color are at fault as operands are. -/
theorem raises_colorPayload (arguments : List Actual) :
    Raises Fault.IsExpression (colorPayload arguments) := by
  have hcomponent v : Raises Fault.IsExpression (colorComponent v) := by
    unfold colorComponent
    split
    · exact .ok _
    · exact Raises.error_iff.mpr rfl
  unfold colorPayload
  split
  · split
    · exact .ok _
    · exact Raises.map_iff.mpr (.mapM hcomponent _)
  · exact Raises.error_iff.mpr rfl
  · exact .ok _

/-- A `color` sends the color of its arguments, or fails. -/
theorem color_does : (color : Command σ).Does fun arguments =>
    match colorPayload arguments with
    | .error f => .fail f
    | .ok payload => .send ⟨"turtle.color", .record [("color", payload)]⟩ where
  handler_eq := by
    refine congrArg Handler.simple ?_
    funext effort frame arguments
    cases colorPayload arguments with
    | error f => rfl
    | ok _ => rfl
  isOf arguments := by
    split
    · next f hf => exact .inr (raises_colorPayload _ f hf)
    · trivial

/-- A command that sends a measure sends what it makes of its number. -/
theorem measured_does (name : String) (aliases : List String) (topic field : String)
    (f : Float → Float) : (measured name aliases topic field f : Command σ).Does fun arguments =>
      .send ⟨topic, .record [(field, .ofFloat (f (Actual.numberAt arguments 0)))]⟩ where
  handler_eq := rfl
  isOf _ := trivial

/-- A command that sends a signal sends the same message whatever its arguments are. -/
theorem signal_does (name : String) (aliases : List String) (topic : String)
    (fields : List (String × Payload)) :
    (signal name aliases topic fields : Command σ).Does fun _ => .send ⟨topic, .record fields⟩ where
  handler_eq := rfl
  isOf _ := trivial

/-- A `goto` sends its two numbers. -/
theorem goto_does : (goto : Command σ).Does fun arguments =>
    .send ⟨"turtle.goto", .record [("x", .ofFloat (Actual.numberAt arguments 0)),
      ("y", .ofFloat (Actual.numberAt arguments 1))]⟩ where
  handler_eq := rfl
  isOf _ := trivial

/-- A `print` sends the texts of its arguments with single blanks between them. -/
theorem print_does : (print : Command σ).Does fun arguments =>
    .send ⟨"console.print",
      .record [("text", .text (" ".intercalate (arguments.map fun a => a.toValue.text)))]⟩ where
  handler_eq := rfl
  isOf _ := trivial

/-- A `return` leaves with its first argument, if it has one. -/
theorem returnValue_does : (returnValue : Command σ).Does fun arguments =>
    .finish (.leave (arguments.head?.map Actual.toValue)) where
  handler_eq := rfl
  isOf _ := trivial

/-- A keyword of an `if` that stands on its own fails. -/
theorem stray_does (keyword : String) : (stray keyword : Command σ).Does fun _ =>
    .fail (.malformedBranch .strayKeyword) where
  handler_eq := rfl
  isOf _ := .inl ⟨_, rfl⟩

/-- Every command of the language is a control command, or has one effect at most and ends with no
value other than an argument. -/
theorem standard_passes {c : Command σ} (h : c ∈ standard) :
    (∃ control : Control, c = control.command) ∨
      ∃ effect, c.Does effect ∧ ∀ arguments, (effect arguments).Passes arguments := by
  simp only [standard, List.mem_cons, List.not_mem_nil, or_false] at h
  rcases h with rfl | rfl | rfl | rfl | rfl | rfl | rfl | rfl | rfl | rfl | rfl | rfl | rfl | rfl |
    rfl | rfl | rfl | rfl | rfl | rfl | rfl | rfl
  · exact .inr ⟨_, new_does, fun _ => by split <;> simp [Effect.Passes, Flow.value?]⟩
  · exact .inr ⟨_, set_does, fun _ => by split <;> simp [Effect.Passes, Flow.value?]⟩
  · exact .inr ⟨_, print_does, fun _ => trivial⟩
  · exact .inr ⟨_, measured_does .., fun _ => trivial⟩
  · exact .inr ⟨_, measured_does .., fun _ => trivial⟩
  · exact .inr ⟨_, measured_does .., fun _ => trivial⟩
  · exact .inr ⟨_, measured_does .., fun _ => trivial⟩
  · exact .inr ⟨_, signal_does .., fun _ => trivial⟩
  · exact .inr ⟨_, signal_does .., fun _ => trivial⟩
  · exact .inr ⟨_, goto_does, fun _ => trivial⟩
  · exact .inr ⟨_, signal_does .., fun _ => trivial⟩
  · exact .inr ⟨_, signal_does .., fun _ => trivial⟩
  · exact .inr ⟨_, color_does, fun _ => by split <;> trivial⟩
  · exact .inr ⟨_, measured_does .., fun _ => trivial⟩
  · exact .inl ⟨.ifElse, rfl⟩
  · exact .inr ⟨_, stray_does _, fun _ => trivial⟩
  · exact .inr ⟨_, stray_does _, fun _ => trivial⟩
  · exact .inl ⟨.whileTrue, rfl⟩
  · exact .inl ⟨.repeatTimes, rfl⟩
  · exact .inl ⟨.eachItem, rfl⟩
  · refine .inr ⟨_, returnValue_does, fun arguments v hv => ?_⟩
    obtain ⟨a, ha, rfl⟩ := Option.map_eq_some_iff.mp hv
    exact ⟨a, List.mem_of_mem_head? ha, rfl⟩
  · exact .inr ⟨_, learn_does, fun _ => by split <;> trivial⟩

/-- Every command of the language is a control command or has one effect at most. -/
theorem standard_cases {c : Command σ} (h : c ∈ standard) :
    (∃ control : Control, c = control.command) ∨ ∃ effect, c.Does effect :=
  (standard_passes h).imp_right fun ⟨effect, hdoes, _⟩ => ⟨effect, hdoes⟩

end Command

end Logo
