import Logo.Proofs.Interpreter.Declared

/-!
# Fallbacks

Commands have something to fall back on where an argument is missing or of another kind: an empty
word, the number zero, a fault, or to do nothing. Here they are defined once more, with any other
fallbacks. On arguments that were checked, they do what the commands of the language do, so that
nothing ever falls back.
-/

namespace Logo

variable {σ : Type}

/-! ## Commands with other fallbacks -/

/-- What commands fall back on where an argument is missing or of another kind. -/
structure Fallbacks (σ : Type) where
  word : String := ""
  number : Float := 0.0
  /-- The code at a position. The blocks of an `if` are left out: words are permitted there. -/
  code : ℕ → Except Fault Code := fun index => .error (.malformedBranch (.expectedCode (index + 1)))
  /-- What `new` and `set` do. -/
  declaration : Action σ Flow := proceed
  /-- What `each` runs over, where this is no array and no object. -/
  items : Option Actual → Except Fault (List Value) := fun data =>
    .error (.typeMismatch "each" .arrayOrObject (data.elim .nothing Actual.finding))
  /-- A parameter of `learn` that is no word. -/
  param : Actual → Option String := fun _ => none
  /-- The parameters of `learn`, if there is no room for them between a name and a body. -/
  params : List String := []
  /-- The branches of an `if` without arguments. -/
  branches : Except Fault (List Branch) := .error (.malformedBranch .missingCondition)

namespace Fallbacks

variable (fallbacks : Fallbacks σ)

/-- The word at a position. -/
def wordAt (arguments : List Actual) (index : ℕ) : String :=
  (arguments[index]?.bind Actual.word?).getD fallbacks.word

/-- The number at a position. -/
def numberAt (arguments : List Actual) (index : ℕ) : Float :=
  (arguments[index]?.bind Actual.number?).getD fallbacks.number

/-- The code at a position. -/
def codeAt (arguments : List Actual) (index : ℕ) : Except Fault Code :=
  match arguments[index]?.bind Actual.code? with
  | some code => .ok code
  | none => fallbacks.code index

/-- The command `new` with other fallbacks. -/
def new : Command σ :=
  { (Command.new : Command σ) with
    handler := .simple fun effort frame arguments =>
      match arguments with
      | .word path :: value :: _ => do
        Action.updateStore fun store => store.create effort frame path value.toValue
        proceed
      | _ => fallbacks.declaration }

/-- The command `set` with other fallbacks. -/
def set : Command σ :=
  { (Command.set : Command σ) with
    handler := .simple fun effort frame arguments =>
      match arguments with
      | .word path :: value :: _ => do
        Action.updateStore fun store => store.set effort frame path value.toValue
        proceed
      | _ => fallbacks.declaration }

/-- A command that sends one number under a topic, with other fallbacks. -/
def measured (name : String) (aliases : List String) (topic field : String) (f : Float → Float) :
    Command σ :=
  { (Command.measured name aliases topic field f : Command σ) with
    handler := .simple fun _ _ arguments =>
      send topic (.record [(field, .ofFloat (f (fallbacks.numberAt arguments 0)))]) }

/-- The command `goto` with other fallbacks. -/
def goto : Command σ :=
  { (Command.goto : Command σ) with
    handler := .simple fun _ _ arguments =>
      send "turtle.goto" (.record [("x", .ofFloat (fallbacks.numberAt arguments 0)),
        ("y", .ofFloat (fallbacks.numberAt arguments 1))]) }

/-- The command `if` with other fallbacks. -/
def ifElse : Command σ :=
  { (Command.ifElse : Command σ) with
    handler := .control fun runner frame arguments =>
      match if arguments.isEmpty then fallbacks.branches else Branch.read arguments with
      | .error f => Action.fail f
      | .ok branches => runBranches runner frame branches }

/-- The command `while` with other fallbacks. -/
def whileTrue : Command σ :=
  { (Command.whileTrue : Command σ) with
    handler := .control fun runner _ arguments =>
      match fallbacks.codeAt arguments 0, fallbacks.codeAt arguments 1 with
      | .ok condition, .ok body =>
        whileLoop (runner.invoke condition none false) (runner.invoke body none false) runner.effort
      | .error f, _ | _, .error f => Action.fail f }

/-- The name of a loop and the arguments behind it, with other fallbacks. -/
def loopName (default : String) (arguments : List Actual) : String × List Actual :=
  if arguments.length = 3 then (fallbacks.wordAt arguments 0, arguments.drop 1)
  else (default, arguments)

/-- The command `repeat` with other fallbacks. -/
def repeatTimes : Command σ :=
  { (Command.repeatTimes : Command σ) with
    handler := .control fun runner _ arguments =>
      let (name, rest) := fallbacks.loopName runner.settings.loopVariable arguments
      match fallbacks.codeAt arguments (arguments.length - 1) with
      | .error f => Action.fail f
      | .ok body =>
        countLoop (Number.floor (fallbacks.numberAt rest 0))
          (fun counter => runner.invoke body (some [(name, .number counter)]) false)
          runner.effort 0.0 }

/-- What `each` runs over, with other fallbacks. -/
def eachItems (data : Option Actual) : Except Fault (List Value) :=
  match data with
  | some (.value (.array items)) => .ok items
  | some (.value (.object fields)) => .ok (fields.map fun (name, _) => .ofText name)
  | other => fallbacks.items other

/-- The command `each` with other fallbacks. -/
def eachItem : Command σ :=
  { (Command.eachItem : Command σ) with
    handler := .control fun runner _ arguments =>
      let (name, rest) := fallbacks.loopName runner.settings.eachVariable arguments
      match fallbacks.codeAt arguments (arguments.length - 1) with
      | .error f => Action.fail f
      | .ok body =>
        match fallbacks.eachItems rest.head? with
        | .error f => Action.fail f
        | .ok items => eachLoop (fun v => runner.invoke body (some [(name, v)]) false) items }

/-- The command `learn` with other fallbacks. -/
def learn : Command σ :=
  { (Command.learn : Command σ) with
    handler := .simple fun effort frame arguments => do
      let name := fallbacks.wordAt arguments 0
      let params :=
        if 2 ≤ arguments.length then
          (arguments.drop 1).dropLast.filterMap fun a => a.word?.or (fallbacks.param a)
        else fallbacks.params
      match fallbacks.codeAt arguments (arguments.length - 1) with
      | .error f => Action.fail f
      | .ok body => do
        Action.updateStore fun store => store.create effort frame name (.code { body with params })
        proceed }

/-- The commands of the language with other fallbacks, in the same order. -/
def commands : List (Command σ) :=
  [fallbacks.new, fallbacks.set, .print,
    fallbacks.measured "forward" ["fd", "f"] "turtle.move" "distance" id,
    fallbacks.measured "backward" ["bk", "b"] "turtle.move" "distance" fun x => -x,
    fallbacks.measured "left" ["lt", "l"] "turtle.turn" "angle" id,
    fallbacks.measured "right" ["rt", "r"] "turtle.turn" "angle" fun x => -x,
    .penUp, .penDown, fallbacks.goto, .home, .clear, .color,
    fallbacks.measured "width" [] "turtle.width" "width" id,
    fallbacks.ifElse, .stray "elif", .stray "else", fallbacks.whileTrue, fallbacks.repeatTimes,
    fallbacks.eachItem, .returnValue, fallbacks.learn]

/-- With the fallbacks that they have, the commands are those of the language. -/
theorem commands_default : commands ({} : Fallbacks σ) = Command.standard := by
  have hif : ifElse ({} : Fallbacks σ) = Command.ifElse := by
    refine congrArg (fun handler => ({ (Command.ifElse : Command σ) with handler } : Command σ)) ?_
    refine congrArg Handler.control ?_
    funext runner frame arguments
    cases arguments with
    | nil => rfl
    | cons => rfl
  have heach : eachItems ({} : Fallbacks σ) = Command.eachItems := by
    funext data
    rcases data with _ | (_ | (_ | _ | _ | _))
    · rfl
    · rfl
    · rfl
    · rfl
    · rfl
    · rfl
  have heachItem : eachItem ({} : Fallbacks σ) = Command.eachItem := by
    rw [eachItem, heach]
    rfl
  have hlearn : learn ({} : Fallbacks σ) = Command.learn := by
    refine congrArg (fun handler => ({ (Command.learn : Command σ) with handler } : Command σ)) ?_
    refine congrArg Handler.simple ?_
    funext effort frame arguments
    rcases arguments with _ | ⟨a, _ | ⟨b, rest⟩⟩
    · rfl
    · rfl
    · have hparams : (fun a : Actual => a.word?.or none) = Actual.word? := by
        funext a
        exact Option.or_none
      simp only [List.length_cons, Nat.le_add_left, if_true, hparams]
      rfl
  rw [commands, hif, heachItem, hlearn]
  rfl

end Fallbacks

/-! ## Checked arguments -/

section Checked

variable {effort : ℕ} {s : Store} {id : FrameId} {label : String} {as : List Argument}
  {xs : List Actual}

/-- The arguments of `new` and `set` are a word and a value. -/
theorem exists_of_validate_declaration
    (h : validate effort s id label Command.declaration as = pure xs) :
    ∃ path value, xs = [.word path, value] := by
  rcases forall₂_admits_of_fixed h with _ | ⟨hword, _ | ⟨_, _ | _⟩⟩
  obtain ⟨path, rfl⟩ := Categories.exists_word_of_admits hword
  exact ⟨path, _, rfl⟩

/-- The argument of a command that takes one number has been checked to be a number. -/
theorem exists_of_validate_oneNumber
    (h : validate effort s id label Command.oneNumber as = pure xs) :
    ∃ x, xs = [.value (.number x)] := by
  rcases forall₂_admits_of_fixed h with _ | ⟨hnumber, _ | _⟩
  obtain ⟨x, rfl⟩ := Categories.exists_number_of_admits hnumber
  exact ⟨x, rfl⟩

/-- The arguments of `goto` have been checked to be two numbers. -/
theorem exists_of_validate_goto
    (h : validate effort s id label (Command.goto : Command σ).signature as = pure xs) :
    ∃ x y, xs = [.value (.number x), .value (.number y)] := by
  rcases forall₂_admits_of_fixed h with _ | ⟨hx, _ | ⟨hy, _ | _⟩⟩
  obtain ⟨x, rfl⟩ := Categories.exists_number_of_admits hx
  obtain ⟨y, rfl⟩ := Categories.exists_number_of_admits hy
  exact ⟨x, y, rfl⟩

/-- The arguments of `while` have been checked to be two pieces of code. -/
theorem exists_of_validate_whileTrue
    (h : validate effort s id label (Command.whileTrue : Command σ).signature as = pure xs) :
    ∃ condition body, xs = [.value (.code condition), .value (.code body)] := by
  rcases forall₂_admits_of_fixed h with _ | ⟨hcondition, _ | ⟨hbody, _ | _⟩⟩
  obtain ⟨condition, rfl⟩ := Categories.exists_code_of_admits hcondition
  obtain ⟨body, rfl⟩ := Categories.exists_code_of_admits hbody
  exact ⟨condition, body, rfl⟩

/-- The arguments of a loop are what it runs over and code, perhaps behind a name. -/
theorem exists_of_validate_loop {subject : Categories}
    (h : validate effort s id label (Command.loopSignature subject) as = pure xs) :
    ∃ x body, (subject ∪ { reference := true }).admits x = true ∧
      (xs = [x, .value (.code body)] ∨ ∃ name, xs = [.word name, x, .value (.code body)]) := by
  obtain ⟨hleast, hmost⟩ := Signature.checkCount_eq_ok_iff.mp (forall₂_of_validate h).1
  have hleast : 2 ≤ as.length := hleast
  have hmost : as.length ≤ 3 := of_decide_eq_true hmost
  have hadmits := forall₂_admits_of_validate h
  have hlength : as.length = 2 ∨ as.length = 3 := by omega
  rcases hlength with htwo | hthree
  · have hpositions : (Command.loopSignature subject).positions 2 =
        [subject ∪ { reference := true }, { code := true }] := rfl
    rw [htwo, hpositions] at hadmits
    rcases hadmits with _ | ⟨hx, _ | ⟨hcode, _ | _⟩⟩
    obtain ⟨body, rfl⟩ := Categories.exists_code_of_admits hcode
    exact ⟨_, body, hx, .inl rfl⟩
  · have hpositions : (Command.loopSignature subject).positions 3 =
        [{ word := true }, subject ∪ { reference := true }, { code := true }] := rfl
    rw [hthree, hpositions] at hadmits
    rcases hadmits with _ | ⟨hword, _ | ⟨hx, _ | ⟨hcode, _ | _⟩⟩⟩
    obtain ⟨name, rfl⟩ := Categories.exists_word_of_admits hword
    obtain ⟨body, rfl⟩ := Categories.exists_code_of_admits hcode
    exact ⟨_, body, hx, .inr ⟨name, rfl⟩⟩

end Checked

/-- Whether two commands have the same names and the same signature, and do the same on checked
arguments. -/
structure Command.Agrees (c c' : Command σ) : Prop where
  names_eq : c'.names = c.names
  signature_eq : c'.signature = c.signature
  run_eq : ∀ {effort : ℕ} {s : Store} {id : FrameId} {label : String} {as : List Argument}
    {xs : List Actual}, validate effort s id label c.signature as = pure xs →
      ∀ (runner : Runner σ) (frame : FrameId),
        c'.handler.run runner frame xs = c.handler.run runner frame xs

namespace Command.Agrees

/-- Every command agrees with itself. -/
theorem refl (c : Command σ) : c.Agrees c where
  names_eq := rfl
  signature_eq := rfl
  run_eq _ _ _ := rfl

/-- A command with another handler agrees if this does the same on checked arguments. -/
theorem of_run {c : Command σ} {handler : Handler σ}
    (h : ∀ {effort : ℕ} {s : Store} {id : FrameId} {label : String} {as : List Argument}
      {xs : List Actual}, validate effort s id label c.signature as = pure xs →
        ∀ (runner : Runner σ) (frame : FrameId),
          handler.run runner frame xs = c.handler.run runner frame xs) :
    c.Agrees { c with handler } where
  names_eq := rfl
  signature_eq := rfl
  run_eq := h

end Command.Agrees

namespace Fallbacks

variable (fallbacks : Fallbacks σ) {arguments : List Actual} {index : ℕ}

/-- Where there is a word, the fallback is not used. -/
theorem wordAt_eq {text : String} (h : arguments[index]? = some (.word text)) :
    fallbacks.wordAt arguments index = Actual.wordAt arguments index := by
  rw [wordAt, Actual.wordAt, h, Option.bind_some, Actual.word?, Option.getD_some, Option.getD_some]

/-- Where there is a number, the fallback is not used. -/
theorem numberAt_eq {x : Float} (h : arguments[index]? = some (.value (.number x))) :
    fallbacks.numberAt arguments index = Actual.numberAt arguments index := by
  rw [numberAt, Actual.numberAt, h, Option.bind_some, Actual.number?, Value.number?,
    Option.getD_some, Option.getD_some]

/-- Where there is code, the fallback is not used. -/
theorem codeAt_eq {code : Code} (h : arguments[index]? = some (.value (.code code))) :
    fallbacks.codeAt arguments index = .ok code ∧ Actual.codeAt arguments index = .ok code := by
  have hcode : arguments[index]?.bind Actual.code? = some code := h ▸ rfl
  simp [codeAt, Actual.codeAt, hcode]

/-- A loop has a name, something to run over, and code. -/
theorem loop_eq {x : Actual} {body : Code} (h : arguments = [x, .value (.code body)] ∨
      ∃ name, arguments = [.word name, x, .value (.code body)]) (default : String) :
    fallbacks.loopName default arguments = Command.loopName default arguments ∧
      (Command.loopName default arguments).2 = [x, .value (.code body)] ∧
      fallbacks.codeAt arguments (arguments.length - 1) = .ok body ∧
      Actual.codeAt arguments (arguments.length - 1) = .ok body := by
  rcases h with rfl | ⟨name, rfl⟩
  · exact ⟨rfl, rfl, fallbacks.codeAt_eq rfl⟩
  · exact ⟨rfl, rfl, fallbacks.codeAt_eq rfl⟩

/-- With checked arguments, `new` needs no fallback. -/
theorem agrees_new : Command.new.Agrees fallbacks.new := by
  refine .of_run fun h _ _ => ?_
  obtain ⟨path, value, rfl⟩ := exists_of_validate_declaration h
  rfl

/-- With checked arguments, `set` needs no fallback. -/
theorem agrees_set : Command.set.Agrees fallbacks.set := by
  refine .of_run fun h _ _ => ?_
  obtain ⟨path, value, rfl⟩ := exists_of_validate_declaration h
  rfl

/-- With checked arguments, a command that sends a measure needs no fallback. -/
theorem agrees_measured (name : String) (aliases : List String) (topic field : String)
    (f : Float → Float) : (Command.measured name aliases topic field f).Agrees
      (fallbacks.measured name aliases topic field f) := by
  refine .of_run fun {_ _ _ _ _ xs} h _ _ => ?_
  obtain ⟨x, hxs⟩ := exists_of_validate_oneNumber h
  have hx : fallbacks.numberAt xs 0 = Actual.numberAt xs 0 :=
    fallbacks.numberAt_eq (by rw [hxs, List.getElem?_cons_zero])
  simp only [Command.measured, Handler.run, hx]

/-- With checked arguments, `goto` needs no fallback. -/
theorem agrees_goto : Command.goto.Agrees fallbacks.goto := by
  refine .of_run fun {_ _ _ _ _ xs} h _ _ => ?_
  obtain ⟨x, y, hxs⟩ := exists_of_validate_goto h
  have hx : fallbacks.numberAt xs 0 = Actual.numberAt xs 0 :=
    fallbacks.numberAt_eq (by rw [hxs, List.getElem?_cons_zero])
  have hy : fallbacks.numberAt xs 1 = Actual.numberAt xs 1 :=
    fallbacks.numberAt_eq (by rw [hxs, List.getElem?_cons_succ, List.getElem?_cons_zero])
  simp only [Command.goto, Handler.run, hx, hy]

/-- With checked arguments, `if` needs no fallback. -/
theorem agrees_ifElse : Command.ifElse.Agrees fallbacks.ifElse := by
  refine .of_run fun {_ _ _ _ as xs} h _ _ => ?_
  have hlength : 2 ≤ as.length :=
    (Signature.checkCount_eq_ok_iff.mp (forall₂_of_validate h).1).1
  rw [← length_of_validate h] at hlength
  cases xs with
  | nil => simp at hlength
  | cons => rfl

/-- With checked arguments, `while` needs no fallback. -/
theorem agrees_whileTrue : Command.whileTrue.Agrees fallbacks.whileTrue := by
  refine .of_run fun h _ _ => ?_
  obtain ⟨condition, body, rfl⟩ := exists_of_validate_whileTrue h
  rfl

/-- With checked arguments, `repeat` needs no fallback. -/
theorem agrees_repeatTimes : Command.repeatTimes.Agrees fallbacks.repeatTimes := by
  refine .of_run fun {_ _ _ _ _ xs} h runner _ => ?_
  obtain ⟨x, body, hx, hxs⟩ := exists_of_validate_loop h
  obtain ⟨count, rfl⟩ := Categories.exists_number_of_admits hx
  obtain ⟨hname, hrest, hbody, hbody'⟩ := fallbacks.loop_eq hxs runner.settings.loopVariable
  have hcount : fallbacks.numberAt (Command.loopName runner.settings.loopVariable xs).2 0 =
      Actual.numberAt (Command.loopName runner.settings.loopVariable xs).2 0 :=
    fallbacks.numberAt_eq (by rw [hrest, List.getElem?_cons_zero])
  simp only [Command.repeatTimes, Handler.run, hname, hbody, hbody', hcount]

/-- With checked arguments, `each` needs no fallback. -/
theorem agrees_eachItem : Command.eachItem.Agrees fallbacks.eachItem := by
  refine .of_run fun {_ _ _ _ _ xs} h runner _ => ?_
  obtain ⟨x, body, hx, hxs⟩ := exists_of_validate_loop h
  obtain ⟨hname, hrest, hbody, hbody'⟩ := fallbacks.loop_eq hxs runner.settings.eachVariable
  obtain ⟨items, hitems, hitems'⟩ : ∃ items, fallbacks.eachItems (some x) = .ok items ∧
      Command.eachItems (some x) = .ok items := by
    rcases Categories.exists_items_of_admits hx with ⟨items, rfl⟩ | ⟨fields, rfl⟩
    · exact ⟨_, rfl, rfl⟩
    · exact ⟨_, rfl, rfl⟩
  simp only [Command.eachItem, Handler.run, hname, hbody, hbody', hrest, List.head?_cons, hitems,
    hitems']

/-- With checked arguments, `learn` needs no fallback. -/
theorem agrees_learn : Command.learn.Agrees fallbacks.learn := by
  refine .of_run fun {_ _ _ _ _ xs} h _ _ => ?_
  obtain ⟨name, params, _, body, _, hxs, _⟩ := exists_of_validate_learn h
  have hname : fallbacks.wordAt xs 0 = Actual.wordAt xs 0 :=
    fallbacks.wordAt_eq (by rw [hxs, List.getElem?_cons_zero])
  obtain ⟨hbody, hbody'⟩ : fallbacks.codeAt xs (xs.length - 1) = .ok body ∧
      Actual.codeAt xs (xs.length - 1) = .ok body := fallbacks.codeAt_eq (by simp [hxs])
  have hlength : 2 ≤ xs.length := by simp [hxs]
  have hparams : (xs.drop 1).dropLast.filterMap (fun a => a.word?.or (fallbacks.param a)) =
      (xs.drop 1).dropLast.filterMap Actual.word? := by
    refine List.filterMap_congr fun a ha => ?_
    obtain ⟨param, _, rfl⟩ : ∃ param ∈ params, .word param = a := by simpa [hxs] using ha
    rfl
  simp only [Command.learn, Handler.run, hname, hbody, hbody', hlength, if_true, hparams]

/-- On checked arguments, the commands of the language do not depend on what they fall back on. -/
theorem commands_agree : List.Forall₂ Command.Agrees Command.standard fallbacks.commands :=
  .cons fallbacks.agrees_new <| .cons fallbacks.agrees_set <| .cons (.refl _) <|
  .cons (fallbacks.agrees_measured ..) <| .cons (fallbacks.agrees_measured ..) <|
  .cons (fallbacks.agrees_measured ..) <| .cons (fallbacks.agrees_measured ..) <|
  .cons (.refl _) <| .cons (.refl _) <| .cons fallbacks.agrees_goto <| .cons (.refl _) <|
  .cons (.refl _) <| .cons (.refl _) <| .cons (fallbacks.agrees_measured ..) <|
  .cons fallbacks.agrees_ifElse <| .cons (.refl _) <| .cons (.refl _) <|
  .cons fallbacks.agrees_whileTrue <| .cons fallbacks.agrees_repeatTimes <|
  .cons fallbacks.agrees_eachItem <| .cons (.refl _) <| .cons fallbacks.agrees_learn .nil

end Fallbacks

/-- **Checked arguments need no fallback.** Arguments that have been checked against a signature are
of kinds that it permits in their places: words where words or expressions are permitted, and values
where their kind is, or where variables are and no kind of value is named. So whatever the commands
fall back on in place of what they do, they are the commands of the language as far as checked
arguments go. The arguments of `learn` have room for parameters between its name and its body. -/
theorem checked_arguments_need_no_fallback (fallbacks : Fallbacks σ) :
    Fallbacks.commands ({} : Fallbacks σ) = Command.standard ∧
    List.Forall₂ Command.Agrees Command.standard fallbacks.commands ∧
    (∀ c ∈ (Command.standard : List (Command σ)), ∀ (effort : ℕ) (s : Store) (id : FrameId)
      (label : String) (as : List Argument) (xs : List Actual),
      validate effort s id label c.signature as = pure xs →
      List.Forall₂ (fun permitted x => permitted.admits x = true)
        (c.signature.positions as.length) xs) ∧
    ∀ (effort : ℕ) (s : Store) (id : FrameId) (label : String) (as : List Argument)
      (xs : List Actual),
      validate effort s id label (Command.learn : Command σ).signature as = pure xs →
      1 ≤ xs.length - 1 ∧ xs.length - 1 < xs.length := by
  refine ⟨Fallbacks.commands_default, fallbacks.commands_agree, ?_, ?_⟩
  · intro c _ effort s id label as xs h
    exact forall₂_admits_of_validate h
  · intro effort s id label as xs h
    obtain ⟨name, params, _, body, _, rfl, _⟩ := exists_of_validate_learn h
    simp

/-- An object in a variable is taken by `each`, and nothing falls back. -/
theorem checked_arguments_need_no_fallback_each :
    let s : Store := { frames := [⟨0, none, none, [("o", .object [])]⟩], next := 1 }
    let each : Command Unit := Command.eachItem
    ∃ (as : List Argument) (xs : List Actual), validate 1 s 0 "each" each.signature as = pure xs ∧
      List.Forall₂ (fun permitted x => permitted.admits x = true) (each.signature.positions 3) xs ∧
      ∀ (fallbacks : Fallbacks Unit) (runner : Runner Unit) (frame : FrameId),
        fallbacks.eachItem.handler.run runner frame xs = each.handler.run runner frame xs := by
  intro s each
  have ho : isIdentifier "o" = true := rfl
  have hk : isPlainWord "k" = true := by decide +kernel
  have hobject : s.find? 0 "o" = some (.object []) := rfl
  obtain ⟨hvalidate, _⟩ := validate_each Unit 1 ⟨0, ⟨1, 1⟩⟩ [] ho hk hobject rfl
  refine ⟨_, _, hvalidate, ?_, fun fallbacks => ?_⟩
  · obtain ⟨_, _, hkinds, _⟩ := checked_arguments_need_no_fallback ({} : Fallbacks Unit)
    exact hkinds each (by simp [each, Command.standard]) _ _ _ _ _ _ hvalidate
  · obtain ⟨_, hagree, _⟩ := checked_arguments_need_no_fallback fallbacks
    have heach : each.Agrees fallbacks.eachItem :=
      (List.forall₂_iff_get.mp hagree).2 19 (by decide) (by simp [Fallbacks.commands])
    exact heach.run_eq hvalidate

end Logo
