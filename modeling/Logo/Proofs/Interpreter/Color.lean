import Logo.Proofs.Interpreter.Agree
import Logo.Proofs.Interpreter.Declared
import Logo.Proofs.Value.Text

/-!
# The color of the pen

A color is given by its name, by the components in an array, or by the components one by one. A
single argument that is none of these is refused. Of several arguments, however, those that are no
numbers are passed over, and the message has the components that are left. So the message of `color`
has all that its arguments say, or the statement fails without a message, exactly unless there are
several arguments and one of them is no number.
-/

namespace Logo

/-! ## Statements with one message -/

namespace StatementRun

variable {σ : Type} {i : Interpreter σ} {st : StatementRun σ} {announced : Machine σ}
variable {command : Command σ} {effect : List Actual → Effect} {arguments : List Actual}
variable {message : Message} {f : Fault}

/-- Whether a statement, once announced, sends one message and does nothing else. There is no value
to give to a target, so a statement that has one fails afterwards. -/
def Sends (i : Interpreter σ) (st : StatementRun σ) (announced : Machine σ) (message : Message) :
    Prop :=
  st.outcome i = some
    (match st.statement.target with
      | none => .ok (.next none)
      | some _ => .error { fault := .missingValue st.statement.label },
    { announced with outbox := announced.outbox.push message })

/-- Whether a statement, once announced, fails and does nothing else. -/
def Fails (i : Interpreter σ) (st : StatementRun σ) (announced : Machine σ) : Prop :=
  ∃ failure, st.outcome i = some (.error failure, announced)

/-- An accepted statement whose command sends a message sends this message and does nothing else. -/
theorem Accepts.sends (h : st.Accepts i command announced arguments) (hdoes : command.Does effect)
    (heffect : effect arguments = .send message) : st.Sends i announced message := by
  have hrun (effort : ℕ) :
      ((Effect.send message).run effort st.frame : Action σ Flow).apply announced =
        some (.ok (.next none), { announced with outbox := announced.outbox.push message }) := rfl
  rw [Sends, outcome, apply_runStatement h.announce, h.apply_dispatch, hdoes.handler_run, heffect,
    hrun, Action.continueWith_ok, Interpreter.bindTarget]
  cases st.statement.target with
  | none => rfl
  | some target => rfl

/-- An accepted statement whose command fails does nothing else. -/
theorem Accepts.fails (h : st.Accepts i command announced arguments) (hdoes : command.Does effect)
    (heffect : effect arguments = .fail f) : st.Fails i announced := by
  rw [Fails, outcome, apply_runStatement h.announce, h.apply_dispatch, hdoes.handler_run, heffect]
  exact ⟨_, rfl⟩

/-- A statement does not both send a message and fail. -/
theorem Sends.not_fails (h : st.Sends i announced message) : ¬st.Fails i announced := by
  rintro ⟨failure, hfails⟩
  obtain ⟨_, hmachine⟩ := Prod.ext_iff.mp (Option.some.inj (h.symm.trans hfails))
  have hsent := congrArg (fun m => m.outbox.sent) hmachine
  simp at hsent

end StatementRun

/-! ## The color that arguments give -/

/-- An array prints as a text in quotes if it is a text of printable characters and not empty. -/
theorem Value.printable?_eq_some_iff {items : List Value} {cs : List Char} :
    printable? items = some cs ↔
      array items = ofText (String.ofList cs) ∧ cs ≠ [] ∧ ∀ c ∈ cs, printsInText c = true := by
  constructor
  · intro h
    refine ⟨eq_ofText_of_printable? h, ?_⟩
    rw [printable?] at h
    split at h
    · simp only [Option.ite_none_right_eq_some, Bool.and_eq_true, Bool.not_eq_true',
        List.isEmpty_eq_false_iff, List.all_eq_true, Option.some.injEq] at h
      obtain ⟨hprints, rfl⟩ := h
      exact hprints
    · cases h
  · rintro ⟨htext, hne, hprints⟩
    have hchars : (array items).text? = some (String.ofList cs) := by rw [htext, text?_ofText]
    obtain ⟨cs', hmapM, hcs⟩ := Option.map_eq_some_iff.mp hchars
    obtain rfl : cs' = cs := String.ofList_injective hcs
    simpa [printable?, hmapM, hne] using hprints

namespace Command

variable {arguments : List Actual} {payload : Payload} {items : List Value}

/-- The color that arguments give, with its numbers as they stand in messages. -/
inductive IsColor : List Actual → Payload → Prop
  /-- A text that prints in quotes is the name of a color. -/
  | name {name : String} (hne : name ≠ "") (hprints : ∀ c ∈ name.toList, printsInText c = true) :
      IsColor [.value (.ofText name)] (.text name)
  /-- Any other array holds the components. -/
  | array {components : List Float}
      (hname : (Value.array (components.map .number)).isPrintableText = false) :
      IsColor [.value (.array (components.map .number))] (.list (components.map .ofFloat))
  /-- Each argument is a component. -/
  | numbers (components : List Float) :
      IsColor (components.map fun x => .value (.number x)) (.list (components.map .ofFloat))

/-- Whether there are several arguments, and one of them is no number. -/
def Mixed (arguments : List Actual) : Prop :=
  2 ≤ arguments.length ∧ ∃ a ∈ arguments, a.number? = none

/-- The components of an array are numbers. -/
theorem mapM_colorComponent_eq_ok_iff {payloads : List Payload} :
    items.mapM colorComponent = .ok payloads ↔
      ∃ components : List Float, items = components.map .number ∧
        payloads = components.map .ofFloat := by
  constructor
  · intro h
    induction items generalizing payloads with
    | nil =>
      cases h
      exact ⟨[], rfl, rfl⟩
    | cons v items ih =>
      rw [List.mapM_cons] at h
      obtain ⟨payload, hpayload, h⟩ := bind_eq_ok_iff.mp h
      obtain ⟨payloads', hpayloads, h⟩ := bind_eq_ok_iff.mp h
      cases h
      obtain ⟨components, rfl, rfl⟩ := ih hpayloads
      cases v with
      | number x =>
        cases hpayload
        exact ⟨x :: components, rfl, rfl⟩
      | array | object | code => cases hpayload
  · rintro ⟨components, rfl, rfl⟩
    induction components with
    | nil => rfl
    | cons x components ih =>
      rw [List.map_cons, List.mapM_cons, ih]
      rfl

/-- Several arguments give a color of the numbers among them. -/
theorem colorPayload_of_two_le (h : 2 ≤ arguments.length) :
    colorPayload arguments = .ok (.list ((arguments.filterMap Actual.number?).map .ofFloat)) := by
  rcases arguments with _ | ⟨a, _ | ⟨b, rest⟩⟩
  · cases h
  · simp at h
  · simp [colorPayload]

/-- Arguments that are all numbers give a color of all of them. -/
theorem colorPayload_numbers (components : List Float) :
    colorPayload (components.map fun x => .value (.number x)) =
      .ok (.list (components.map .ofFloat)) := by
  rcases components with _ | ⟨x, _ | ⟨y, rest⟩⟩
  · rfl
  · rfl
  · rw [colorPayload_of_two_le (by simp), List.filterMap_map]
    exact congrArg (fun xs => Except.ok (Payload.list (xs.map .ofFloat))) List.filterMap_some

/-- Arguments of which none is anything but a number are numbers throughout. -/
theorem exists_numbers_of_forall (h : ∀ a ∈ arguments, a.number? ≠ none) :
    ∃ components : List Float, arguments = components.map fun x => .value (.number x) := by
  induction arguments with
  | nil => exact ⟨[], rfl⟩
  | cons a arguments ih =>
    obtain ⟨ha, harguments⟩ := List.forall_mem_cons.mp h
    obtain ⟨components, rfl⟩ := ih harguments
    rcases a with _ | (x | _ | _ | _)
    · exact absurd rfl ha
    · exact ⟨x :: components, rfl⟩
    · exact absurd rfl ha
    · exact absurd rfl ha
    · exact absurd rfl ha

/-- The color that one array gives is a color of this array. -/
theorem isColor_of_array (h : colorPayload [.value (.array items)] = .ok payload) :
    IsColor [.value (.array items)] payload := by
  rw [colorPayload] at h
  split at h
  · next cs hprintable =>
    cases h
    obtain ⟨htext, hne, hprints⟩ := Value.printable?_eq_some_iff.mp hprintable
    rw [htext]
    exact .name (by simpa using hne) (by simpa using hprints)
  · next hprintable =>
    obtain ⟨payloads, hpayloads, rfl⟩ := map_eq_ok_iff.mp h
    obtain ⟨components, rfl, rfl⟩ := mapM_colorComponent_eq_ok_iff.mp hpayloads
    exact .array (by simp [Value.isPrintableText, hprintable])

/-- The payload of a message is the color that the arguments give, unless there are several and one
of them is no number. -/
theorem isColor_iff
    (h : ∀ a ∈ arguments, ({ numeric := true, array := true } : Categories).admits a = true) :
    IsColor arguments payload ↔ colorPayload arguments = .ok payload ∧ ¬Mixed arguments := by
  constructor
  · intro hcolor
    cases hcolor with
    | @name name hne hprints =>
      have hprintable : Value.printable? (name.toList.map fun c => .number c.val.toFloat) =
          some name.toList := by
        refine Value.printable?_eq_some_iff.mpr ⟨?_, by simpa using hne, hprints⟩
        rw [String.ofList_toList, Value.ofText]
      refine ⟨?_, fun hmixed => by simp [Mixed] at hmixed⟩
      simp only [Value.ofText, colorPayload, hprintable, String.ofList_toList]
    | @array components hname =>
      have hprintable : Value.printable? (components.map .number) = none := by
        simpa [Value.isPrintableText] using hname
      have hcomponents := mapM_colorComponent_eq_ok_iff.mpr ⟨components, rfl, rfl⟩
      refine ⟨?_, fun hmixed => by simp [Mixed] at hmixed⟩
      simp only [colorPayload, hprintable, hcomponents, Except.map]
    | numbers components =>
      refine ⟨colorPayload_numbers components, ?_⟩
      rintro ⟨_, a, ha, hnone⟩
      obtain ⟨x, _, rfl⟩ := List.mem_map.mp ha
      cases hnone
  · rintro ⟨hpayload, hmixed⟩
    by_cases hnumbers : ∀ a ∈ arguments, a.number? ≠ none
    · obtain ⟨components, rfl⟩ := exists_numbers_of_forall hnumbers
      rw [colorPayload_numbers] at hpayload
      cases hpayload
      exact .numbers components
    · -- One argument is no number, so it is the only one, and it is an array.
      simp only [not_forall, not_not] at hnumbers
      obtain ⟨a, ha, hnone⟩ := hnumbers
      have hlength : ¬2 ≤ arguments.length := fun hlength => hmixed ⟨hlength, a, ha, hnone⟩
      obtain ⟨b, rfl⟩ := List.length_eq_one_iff.mp
        (Nat.le_antisymm (Nat.le_of_not_lt hlength) (List.length_pos_of_mem ha))
      cases List.mem_singleton.mp ha
      have hadmits := h a ha
      rcases a with _ | (_ | items | _ | _)
      · cases hadmits
      · cases hnone
      · exact isColor_of_array hpayload
      · cases hpayload
      · cases hadmits

/-- The message of a color. -/
def colorMessage (payload : Payload) : Message := ⟨"turtle.color", .record [("color", payload)]⟩

end Command

section Statement

open Command

variable {σ : Type} {i : Interpreter σ} {st : StatementRun σ} {announced : Machine σ}
variable {arguments : List Actual}

/-- An accepted `color` sends the color that its arguments give. -/
theorem StatementRun.Accepts.sends_color (h : st.Accepts i color announced arguments)
    {payload : Payload} (hpayload : colorPayload arguments = .ok payload) :
    st.Sends i announced (colorMessage payload) :=
  h.sends color_does (by simp only [hpayload, colorMessage])

/-- An accepted `color` fails if its arguments give no color. -/
theorem StatementRun.Accepts.fails_color (h : st.Accepts i color announced arguments)
    {f : Fault} (hpayload : colorPayload arguments = .error f) : st.Fails i announced :=
  h.fails (f := f) color_does (by simp only [hpayload])

/-- **No argument of `color` is dropped unless numbers are mixed with others.** Let the arguments of
a `color` be checked. The statement sends one message with the color that they give, or fails
without a message, exactly unless there are several of them and one is no number. It sends the
message whenever they give a color. Of several arguments of which one is no number, it sends those
that are numbers, and these are not all. -/
theorem color_keeps_arguments_iff (h : st.Accepts i color announced arguments) :
    ((∃ payload, IsColor arguments payload ∧ st.Sends i announced (colorMessage payload)) ∨
        st.Fails i announced ↔ ¬Mixed arguments) ∧
      (∀ payload, IsColor arguments payload → st.Sends i announced (colorMessage payload)) ∧
      (Mixed arguments →
        let components := arguments.filterMap Actual.number?
        st.Sends i announced (colorMessage (.list (components.map .ofFloat))) ∧
          components.length < arguments.length) := by
  have hcolor {payload : Payload} :
      IsColor arguments payload ↔ colorPayload arguments = .ok payload ∧ ¬Mixed arguments :=
    isColor_iff (admits_of_variadic h.checked)
  refine ⟨⟨?_, fun hmixed => ?_⟩, fun payload hpayload => ?_, fun hmixed => ⟨?_, ?_⟩⟩
  · rintro (⟨payload, hpayload, _⟩ | hfails) hmixed
    · exact (hcolor.mp hpayload).2 hmixed
    · exact (h.sends_color (colorPayload_of_two_le hmixed.1)).not_fails hfails
  · cases hpayload : colorPayload arguments with
    | error f => exact .inr (h.fails_color hpayload)
    | ok payload =>
      exact .inl ⟨payload, hcolor.mpr ⟨hpayload, hmixed⟩, h.sends_color hpayload⟩
  · exact h.sends_color (hcolor.mp hpayload).1
  · exact h.sends_color (colorPayload_of_two_le hmixed.1)
  · obtain ⟨a, ha, hnone⟩ := hmixed.2
    exact List.length_filterMap_lt_length_iff_exists.mpr ⟨a, ha, hnone⟩

/-- Three numbers are three components. -/
theorem color_keeps_arguments_iff_three :
    let i : Interpreter Unit := { registry := .standard }
    let m : Machine Unit :=
      { store := ({} : Store).push none none, outbox := { capacity := 64 }, host := () }
    let st : StatementRun Unit :=
      ⟨1, 0, ⟨"color", [.text "255", .text "0", .text "128"], none, ⟨1, 1⟩⟩, m⟩
    let arguments : List Actual := [255, 0, 128].map fun x => .value (.number x)
    st.Accepts i color m arguments ∧ ¬Mixed arguments ∧
      st.Sends i m (colorMessage (.list ([255, 0, 128].map .ofFloat))) := by
  intro i m st arguments
  have haccepts : st.Accepts i color m arguments := ⟨rfl, rfl, rfl⟩
  obtain ⟨hkeeps, hsends, _⟩ := color_keeps_arguments_iff haccepts
  have hcolor : IsColor arguments (.list ([255, 0, 128].map .ofFloat)) := .numbers _
  exact ⟨haccepts, hkeeps.mp (.inl ⟨_, hcolor, hsends _ hcolor⟩), hsends _ hcolor⟩

/-- An array that comes after a number is passed over. -/
theorem color_passes_over_array :
    let i : Interpreter Unit := { registry := .standard }
    let m : Machine Unit :=
      { store := ({} : Store).push none none, outbox := { capacity := 64 }, host := () }
    let st : StatementRun Unit :=
      ⟨2, 0, ⟨"color", [.text "255", .text "[0, 1]"], none, ⟨1, 1⟩⟩, m⟩
    let arguments : List Actual :=
      [.value (.number 255), .value (.array [.number 0, .number 1])]
    st.Accepts i color m arguments ∧
      ¬((∃ payload, IsColor arguments payload ∧ st.Sends i m (colorMessage payload)) ∨
        st.Fails i m) ∧
      st.Sends i m (colorMessage (.list [.ofFloat 255])) := by
  intro i m st arguments
  have haccepts : st.Accepts i color m arguments := ⟨rfl, rfl, rfl⟩
  have hmixed : Mixed arguments := ⟨by decide, _, List.mem_of_getLast? rfl, rfl⟩
  have hsends : st.Sends i m (colorMessage (.list [.ofFloat 255])) := haccepts.sends_color rfl
  refine ⟨haccepts, ?_, hsends⟩
  rintro (⟨payload, hcolor, _⟩ | hfails)
  · exact ((isColor_iff (admits_of_variadic haccepts.checked)).mp hcolor).2 hmixed
  · exact hsends.not_fails hfails

end Statement

end Logo
