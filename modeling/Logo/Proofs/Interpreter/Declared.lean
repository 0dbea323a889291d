import Logo.Proofs.Interpreter.Keys

/-!
# Declared names

`learn`, `repeat` and `each` declare names, and each block that they make run starts with values for
them. A declared name has to be a plain word, and its value is stored under the whole word. But what
is looked up are identifiers only: a path is cut at its first point or bracket. So a value can be
read exactly if its name is an identifier, and under any other name it is out of reach.
-/

namespace Logo

variable {σ : Type}

/-! ## Only identifiers are looked up -/

section Lookup

variable {find? other? : String → Option Value}
  (h : ∀ name, isIdentifier name = true → find? name = other? name)

include h

namespace Path

/-- Names in a path are replaced in the same way if the two look-ups agree on identifiers. -/
theorem expandFrom_congr (path : String) (depth : ℕ) (name? : Option (List Char))
    (cs : List Char) :
    expandFrom path find? depth name? cs = expandFrom path other? depth name? cs := by
  induction cs generalizing depth name? with
  | nil => cases name? <;> rfl
  | cons c cs ih =>
    cases name? with
    | none => simp only [expandFrom, ih]
    | some name =>
      simp only [expandFrom, ih]
      split
      · split
        · next hname => rw [h _ hname]
        · rfl
      · rfl

/-- A path is resolved in the same way if the two look-ups agree on identifiers. -/
theorem resolve_congr (evaluate : String → Eval Value) (path : String) :
    resolve find? evaluate path = resolve other? evaluate path := by
  rw [resolve, resolve, expand, expand, expandFrom_congr h]

/-- The same is read on a path if the two look-ups agree on identifiers. -/
theorem get_congr (evaluate : String → Eval Value) (path : String) :
    get find? evaluate path = get other? evaluate path := by
  rw [get, get, resolve_congr h]
  rcases (resolve other? evaluate path).cases_outcome with hp | ⟨fault, hp⟩ | ⟨p, hp⟩
  · rw [hp]
    rfl
  · rw [hp]
    rfl
  · rw [hp, pure_bind, pure_bind, h p.base (isIdentifier_of_resolve hp)]

end Path

/-- Expressions have the same values if identifiers have. -/
theorem evaluate_congr (effort : ℕ) (expression : String) :
    evaluate effort (.names find?) expression = evaluate effort (.names other?) expression := by
  induction effort generalizing expression with
  | zero => rfl
  | succ effort ih =>
    have hevaluate : evaluate effort (.names find?) = evaluate effort (.names other?) := funext ih
    have hload : (Environment.names find?).load (evaluate effort (.names other?)) =
        (Environment.names other?).load (evaluate effort (.names other?)) :=
      funext (Path.get_congr h _)
    rw [evaluate, evaluate, hevaluate, hload]

end Lookup

namespace Store

/-- A name that is let through by a filter is found as before. -/
theorem lookup_filter {name : String} {p : String → Bool} (hp : p name = true)
    (bindings : Bindings) :
    (bindings.filter fun b => p b.1).lookup name = bindings.lookup name := by
  induction bindings with
  | nil => rfl
  | cons b rest ih =>
    obtain ⟨key, v⟩ := b
    by_cases hkey : name = key
    · subst hkey
      simp [hp]
    · rw [List.filter_cons, List.lookup_cons, beq_eq_false_iff_ne.mpr hkey]
      split
      · rw [List.lookup_cons, beq_eq_false_iff_ne.mpr hkey, ih]
      · exact ih

/-- What is bound to other names than identifiers makes no difference. -/
theorem read_push_filter {p : String → Bool} (hp : ∀ name, isIdentifier name = true → p name = true)
    (s : Store) (id : FrameId) (bindings : Bindings) (effort : ℕ) (text : String) :
    let full := s.push (some id) (some bindings)
    let reduced := s.push (some id) (some (bindings.filter fun b => p b.1))
    full.get effort s.next text = reduced.get effort s.next text ∧
      evaluate effort (full.environment s.next) text =
        evaluate effort (reduced.environment s.next) text := by
  intro full reduced
  have hfind name (hname : isIdentifier name = true) :
      full.find? s.next name = reduced.find? s.next name := by
    rw [find?_push, find?_push, Option.getD_some, Option.getD_some, lookup_filter (hp name hname)]
  have hevaluate : evaluate effort (full.environment s.next) =
      evaluate effort (reduced.environment s.next) := funext (evaluate_congr hfind effort)
  refine ⟨?_, congrFun hevaluate text⟩
  rw [get, get, hevaluate, Path.get_congr hfind]

end Store

/-! ## Accepted names -/

/-- A plain word is an identifier if it has no point and no bracket. -/
theorem isIdentifier_iff_of_isPlainWord {word : String} (h : isPlainWord word = true) :
    isIdentifier word = true ↔ '.' ∉ word.toList ∧ '[' ∉ word.toList := by
  constructor
  · intro hword
    exact ⟨fun hmem => (isIdentChar_spec (isIdentChar_of_mem hword hmem)).2.2.1 rfl,
      fun hmem => (isIdentChar_spec (isIdentChar_of_mem hword hmem)).2.2.2 rfl⟩
  · rintro ⟨hdot, hopen⟩
    have hchars (cs : List Char) (hplain : isPlainFrom 0 none cs = true) (hdot : '.' ∉ cs)
        (hopen : '[' ∉ cs) : cs.all isIdentChar = true := by
      induction cs with
      | nil => rfl
      | cons c cs ih =>
        obtain ⟨hc, hdot⟩ := not_or.mp (mt List.mem_cons.mpr hdot)
        obtain ⟨hc', hopen⟩ := not_or.mp (mt List.mem_cons.mpr hopen)
        rw [isPlainFrom.eq_def] at hplain
        dsimp only at hplain
        rw [if_neg (Ne.symm hc'), if_neg (lt_irrefl 0), if_neg (Ne.symm hc)] at hplain
        split at hplain
        · cases hplain
        · obtain ⟨hchar, hplain⟩ := Bool.and_eq_true_iff.mp hplain
          rw [List.all_cons, hchar, ih hplain hdot hopen]
          rfl
    obtain ⟨c, rest, hword, hc, hplain⟩ := exists_of_isPlainWord h
    rw [hword] at hdot hopen
    have hall := hchars _ hplain hdot hopen
    rw [List.all_cons, Bool.and_eq_true_iff] at hall
    simp only [isIdentifier, hword, isIdentifierChars, hc, hall.2, Bool.and_true]

section Accepted

variable {s : Store} {id : FrameId} {effort : ℕ} {command : String} {as : List Argument}
  {xs : List Actual}

/-- The arguments of a `learn` are the name of a procedure, names of parameters and code. -/
theorem exists_of_validate_learn
    (h : validate effort s id command (Command.learn : Command σ).signature as = pure xs) :
    ∃ (name : String) (params : List String) (last : Argument) (code : Code),
      as = .text name :: (params.map .text ++ [last]) ∧
      xs = .word name :: (params.map .word ++ [.value (.code code)]) ∧
      ∀ word ∈ name :: params, isPlainWord word = true := by
  obtain ⟨hcount, hxs⟩ := forall₂_of_validate h
  have hlength : 2 ≤ as.length := (Signature.checkCount_eq_ok_iff.mp hcount).1
  have hne : as ≠ [] := by
    rintro rfl
    simp at hlength
  let permitted (k : ℕ) := (Command.learn : Command σ).signature.permitted k as.length
  have hword (k : ℕ) (hk : k + 1 < 0 + as.length) : permitted k = { word := true } := by
    simp only [permitted, Command.learn, Signature.permitted, List.length_singleton]
    rw [if_neg (by omega)]
    cases k with
    | zero => rfl
    | succ k => rfl
  have hcode (k : ℕ) (hk : k + 1 = 0 + as.length) : permitted k = { code := true } := by
    have hback : 1 - (as.length - k) = 0 := by omega
    simp only [permitted, Command.learn, Signature.permitted, List.length_singleton, hback]
    rw [if_pos (by omega)]
    rfl
  obtain ⟨words, last, code, has, rfl, hwords⟩ :=
    exists_of_checkArgument_words permitted hne hword hcode hxs
  cases words with
  | nil =>
    subst has
    simp at hlength
  | cons name params => exact ⟨name, params, last, code, has, rfl, hwords⟩

end Accepted

/-- The name in front of a loop, or else the one that is set for such loops. -/
def Statement.loopName (default : String) (s : Statement) : String :=
  match s.arguments with
  | [.text name, _, _] => name
  | _ => default

/-- The name of a loop is the word in front of it, if it has three arguments. -/
theorem loopName_of_validate {store : Store} {id : FrameId} {effort : ℕ} {command : String}
    {st : Statement} {subject : Categories} {arguments : List Actual}
    (h : validate effort store id command (Command.loopSignature subject) st.arguments =
      pure arguments) (default : String) :
    (Command.loopName default arguments).1 = st.loopName default ∧
      (st.arguments.length = 3 → st.arguments.head? = some (.text (st.loopName default)) ∧
        isPlainWord (st.loopName default) = true) := by
  have hlength := length_of_validate h
  by_cases hthree : st.arguments.length = 3
  · obtain ⟨a, b, c, harguments⟩ := List.length_eq_three.mp hthree
    obtain ⟨_, hxs⟩ := forall₂_of_validate h
    rw [harguments] at hxs
    rcases hxs with _ | ⟨hx, hxs⟩
    obtain ⟨name, rfl, rfl, hname⟩ := exists_of_checkArgument_word hx
    have hloop : st.loopName default = name := by
      rw [Statement.loopName, harguments]
    rw [hloop, harguments]
    refine ⟨?_, fun _ => ⟨rfl, hname⟩⟩
    rw [Command.loopName, if_pos (hlength.trans hthree)]
    rfl
  · refine ⟨?_, fun h => absurd h hthree⟩
    rw [Command.loopName, if_neg (hlength ▸ hthree), Statement.loopName]
    split
    · next heq => simp [heq] at hthree
    · rfl

/-! ## Values of declared names -/

section Calls

variable {invoke : Code → Option Bindings → Bool → Action σ Flow} {m : Machine σ} {call : Call σ}
  {name : String} {body : Code} {round : ℕ}

/-- The first block of a loop, or a later one. -/
theorem Script.cases_of_loop {role : Role} {bindings : Option Bindings} {rest : Script}
    (h : ((block role body bindings fun flow =>
      if flow.isLeave then .finish flow else rest).calls invoke m)[round]? = some call) :
    round = 0 ∧ call.bindings = bindings ∨
      ∃ k m', round = k + 1 ∧ (rest.calls invoke m')[k]? = some call := by
  rw [calls] at h
  cases round with
  | zero =>
    obtain rfl := Option.some.inj h
    exact .inl ⟨rfl, rfl⟩
  | succ k =>
    refine .inr ⟨k, ?_⟩
    rw [List.getElem?_cons_succ] at h
    split at h
    · next flow m' _ =>
      split at h
      · cases h
      · exact ⟨m', rfl, h⟩
    · cases h
    · cases h

/-- The blocks of an `each` have the items in order. -/
theorem bindings_of_eachScript {items : List Value}
    (h : ((eachScript name body items).calls invoke m)[round]? = some call) :
    ∃ v, items[round]? = some v ∧ call.bindings = some [(name, v)] := by
  induction items generalizing m round with
  | nil => cases h
  | cons v items ih =>
    rcases Script.cases_of_loop h with ⟨rfl, hbindings⟩ | ⟨k, m', rfl, hrest⟩
    · exact ⟨v, rfl, hbindings⟩
    · exact ih hrest

/-- The blocks of a `repeat` have the numbers in order, one apart. -/
theorem bindings_of_countScript {limit counter : Float} {rounds : ℕ}
    (h : ((countScript limit name body rounds counter).calls invoke m)[round]? = some call) :
    call.bindings = some [(name, .number ((· + 1.0)^[round] counter))] := by
  induction rounds generalizing m round counter with
  | zero => cases h
  | succ rounds ih =>
    rw [countScript] at h
    split at h
    · rcases Script.cases_of_loop h with ⟨rfl, hbindings⟩ | ⟨k, m', rfl, hrest⟩
      · exact hbindings
      · rw [Function.iterate_succ_apply]
        exact ih hrest
    · cases h

end Calls

section Parameters

variable {params : List String} {name : String} {arguments : List Actual}

/-- A name that is no parameter is found as it was before the parameters were bound. -/
theorem lookup_bindParams_of_not_mem (hname : name ∉ params) (arguments : List Actual)
    (bindings : Bindings) :
    ((params.zip arguments).foldl (fun b (param, a) => putField b param a.toValue)
      bindings).lookup name = bindings.lookup name := by
  induction params generalizing arguments bindings with
  | nil => rfl
  | cons param params ih =>
    obtain ⟨hne, hname⟩ := not_or.mp (mt List.mem_cons.mpr hname)
    cases arguments with
    | nil => rfl
    | cons a arguments =>
      rw [List.zip_cons_cons, List.foldl_cons, ih hname, lookup_putField, if_neg hne]

/-- Parameters of different names have the arguments in order. -/
theorem lookup_bindParams (hdistinct : params.Nodup) {k : ℕ} {a : Actual}
    (hname : params[k]? = some name) (ha : arguments[k]? = some a) :
    (bindParams params arguments).lookup name = some a.toValue := by
  have hfold (bindings : Bindings) :
      ((params.zip arguments).foldl (fun b (param, a) => putField b param a.toValue)
        bindings).lookup name = some a.toValue := by
    induction params generalizing arguments bindings k with
    | nil => cases hname
    | cons param params ih =>
      obtain ⟨hparam, hdistinct⟩ := List.nodup_cons.mp hdistinct
      cases arguments with
      | nil => cases ha
      | cons b arguments =>
        rw [List.zip_cons_cons, List.foldl_cons]
        cases k with
        | zero =>
          obtain rfl := Option.some.inj hname
          obtain rfl := Option.some.inj ha
          rw [lookup_bindParams_of_not_mem hparam, lookup_putField, if_pos rfl]
        | succ k => exact ih hdistinct hname ha _
  exact hfold []

end Parameters

/-- Whether a statement has a command, with its arguments checked. -/
structure StatementRun.Accepts (i : Interpreter σ) (st : StatementRun σ) (command : Command σ)
    (announced : Machine σ) (arguments : List Actual) : Prop where
  announce : (i.hooks.announce st.statement).apply st.start = some (.ok (), announced)
  found : i.registry.find? st.statement.label = some command
  checked : validate st.effort announced.store st.frame st.statement.label command.signature
    st.statement.arguments = pure arguments

/-- A statement with checked arguments runs its command. -/
theorem StatementRun.Accepts.apply_dispatch {i : Interpreter σ} {st : StatementRun σ}
    {command : Command σ} {announced : Machine σ} {arguments : List Actual}
    (h : st.Accepts i command announced arguments) :
    (i.dispatch (i.runner st.effort) st.frame st.statement).apply announced =
      (command.handler.run (i.runner st.effort) st.frame arguments).apply announced := by
  rw [Interpreter.apply_dispatch_command h.found, h.checked, Action.apply_bind,
    Action.apply_ofEval_pure, Action.continueWith_ok]

/-- Whether a statement runs a block with a value for a name that is declared with the block. -/
inductive StatementRun.Gives (i : Interpreter σ) (st : StatementRun σ) :
    Invocation σ → String → Value → Prop
  /-- The counter of a `repeat` is zero in the first round. -/
  | counter {announced : Machine σ} {arguments : List Actual} {round : ℕ} {call : Call σ}
      (haccepts : st.Accepts i Command.repeatTimes announced arguments)
      (hcall : ((Control.repeatTimes.script st.effort i.settings st.frame arguments).calls
        (i.runner st.effort).invoke announced)[round]? = some call) :
      Gives i st call.invocation (st.statement.loopName i.settings.loopVariable)
        (.number ((· + 1.0)^[round] 0.0))
  /-- The blocks of an `each` have the items in order. -/
  | item {announced : Machine σ} {arguments : List Actual} {round : ℕ} {call : Call σ}
      {items : List Value} {v : Value}
      (haccepts : st.Accepts i Command.eachItem announced arguments)
      (hcall : ((Control.eachItem.script st.effort i.settings st.frame arguments).calls
        (i.runner st.effort).invoke announced)[round]? = some call)
      (hitems : Command.eachItems (Command.loopName i.settings.eachVariable arguments).2.head? =
        .ok items) (hv : items[round]? = some v) :
      Gives i st call.invocation (st.statement.loopName i.settings.eachVariable) v
  /-- The parameters of a procedure have the arguments in order. -/
  | argument {announced : Machine σ} {code : Code} {arguments : List Actual} {k : ℕ}
      {name : String} {a : Actual}
      (hannounce : (i.hooks.announce st.statement).apply st.start = some (.ok (), announced))
      (hcommand : i.registry.find? st.statement.label = none)
      (hprocedure : announced.store.procedure? st.frame st.statement.label = some code)
      (harguments : validate st.effort announced.store st.frame st.statement.label
        (.exactly code.arity .value) st.statement.arguments = pure arguments)
      (hname : code.params[k]? = some name) (ha : arguments[k]? = some a) :
      Gives i st ⟨code, some (bindParams code.params arguments), true, announced⟩ name a.toValue

/-- The names that are declared with a block that a statement runs: the name of a loop, or the
parameters of a procedure. -/
def StatementRun.declared (i : Interpreter σ) (st : StatementRun σ) (v : Invocation σ) :
    List String :=
  match (i.registry.find? st.statement.label).map Command.name with
  | some "repeat" => [st.statement.loopName i.settings.loopVariable]
  | some "each" => [st.statement.loopName i.settings.eachVariable]
  | some _ => []
  | none => v.code.params

section Gives

variable {i : Interpreter σ} {st : StatementRun σ} {inv : Invocation σ} {name : String} {v : Value}

/-- An `each` that runs a block has items. -/
theorem exists_of_call_eachItem {effort round : ℕ} {settings : Settings} {frame : FrameId}
    {arguments : List Actual} {invoke : Code → Option Bindings → Bool → Action σ Flow}
    {m : Machine σ} {call : Call σ}
    (h : ((Control.eachItem.script effort settings frame arguments).calls invoke m)[round]? =
      some call) :
    ∃ items v, Command.eachItems (Command.loopName settings.eachVariable arguments).2.head? =
        .ok items ∧ items[round]? = some v ∧
      call.bindings = some [((Command.loopName settings.eachVariable arguments).1, v)] := by
  simp only [Control.script] at h
  split at h
  · cases h
  · split at h
    · cases h
    · next items hitems =>
      obtain ⟨v, hv, hbindings⟩ := bindings_of_eachScript h
      exact ⟨items, v, hitems, hv, hbindings⟩

/-- Each block that is run has a value for each name that is declared with it. -/
theorem StatementRun.Invokes.exists_gives (h : st.Invokes i inv)
    (hname : name ∈ st.declared i inv) : ∃ v, st.Gives i inv name v := by
  cases h with
  | @control effort frame s start announced c arguments call hannounce hcommand harguments hcall =>
    obtain ⟨round, hround⟩ := List.mem_iff_getElem?.mp hcall
    simp only [declared, hcommand, Option.map_some] at hname
    cases c with
    | ifElse => cases hname
    | whileTrue => cases hname
    | repeatTimes =>
      obtain rfl := List.mem_singleton.mp hname
      exact ⟨_, .counter ⟨hannounce, hcommand, harguments⟩ hround⟩
    | eachItem =>
      obtain rfl := List.mem_singleton.mp hname
      obtain ⟨items, v, hitems, hv, _⟩ := exists_of_call_eachItem hround
      exact ⟨v, .item ⟨hannounce, hcommand, harguments⟩ hround hitems hv⟩
  | @procedure effort frame s start announced code arguments hannounce hcommand hprocedure
      harguments =>
    simp only [declared, hcommand, Option.map_none] at hname
    obtain ⟨k, hk, rfl⟩ := List.mem_iff_getElem.mp hname
    have hlength : arguments.length = code.params.length := by
      obtain ⟨hleast, hmost⟩ :=
        Signature.checkCount_eq_ok_iff.mp (forall₂_of_validate harguments).1
      have hmost : s.arguments.length ≤ code.params.length := of_decide_eq_true hmost
      rw [length_of_validate harguments]
      exact le_antisymm hmost hleast
    exact ⟨_, .argument hannounce hcommand hprocedure harguments (List.getElem?_eq_getElem hk)
      (List.getElem?_eq_getElem (hlength ▸ hk))⟩

/-- The value of a declared name is bound to it. -/
theorem StatementRun.Gives.lookup (h : st.Gives i inv name v)
    (hdistinct : inv.procedure = true → inv.code.params.Nodup) :
    ∃ bindings, inv.bindings = some bindings ∧ bindings.lookup name = some v := by
  cases h with
  | counter haccepts hcall =>
    simp only [Control.script] at hcall
    split at hcall
    · cases hcall
    · refine ⟨_, bindings_of_countScript hcall, ?_⟩
      rw [(loopName_of_validate haccepts.checked _).1, List.lookup_cons_self]
  | item haccepts hcall hitems hv =>
    obtain ⟨items', v', hitems', hv', hbindings⟩ := exists_of_call_eachItem hcall
    obtain rfl := Except.ok.inj (hitems.symm.trans hitems')
    obtain rfl := Option.some.inj (hv.symm.trans hv')
    refine ⟨_, hbindings, ?_⟩
    rw [(loopName_of_validate haccepts.checked _).1, List.lookup_cons_self]
  | argument hannounce hcommand hprocedure harguments hname ha =>
    exact ⟨_, rfl, lookup_bindParams (hdistinct rfl) hname ha⟩

end Gives

/-! ## What a block can read -/

/-- The block as it runs without a value for a name. -/
def Invocation.without (v : Invocation σ) (name : String) : Invocation σ :=
  { v with bindings := v.bindings.map (·.filter (·.1 != name)) }

/-- A value whose name is an identifier can be read where the block starts. -/
theorem StatementRun.Gives.read {i : Interpreter σ} {st : StatementRun σ} {inv : Invocation σ}
    {name : String} {v : Value} (h : st.Gives i inv name v)
    (hdistinct : inv.procedure = true → inv.code.params.Nodup) (hname : isIdentifier name = true)
    (effort effort' : ℕ) :
    let block := inv.blockRun effort
    block.start.store.get effort' block.frame name = pure v ∧
      evaluate (effort' + 1) (block.start.store.environment block.frame) name = pure v := by
  obtain ⟨bindings, hbindings, hv⟩ := h.lookup hdistinct
  intro block
  have hfind : block.start.store.find? block.frame name = some v := by
    simp only [block, Invocation.blockRun, hbindings]
    rw [Store.find?_push, Option.getD_some, hv, Option.some_or]
  exact ⟨Store.get_of_isIdentifier hname hfind, evaluate_of_isIdentifier hname hfind⟩

/-- A value whose name is no identifier makes no difference where the block starts. -/
theorem Invocation.read_without (inv : Invocation σ) {name : String}
    (hname : isIdentifier name = false) (effort effort' : ℕ) (text : String) :
    let block := inv.blockRun effort
    let bare := (inv.without name).blockRun effort
    block.start.store.get effort' block.frame text = bare.start.store.get effort' bare.frame text ∧
      evaluate effort' (block.start.store.environment block.frame) text =
        evaluate effort' (bare.start.store.environment bare.frame) text := by
  have hother (other : String) (hother : isIdentifier other = true) : (other != name) = true := by
    rw [bne_iff_ne]
    rintro rfl
    rw [hname] at hother
    cases hother
  cases hbindings : inv.bindings with
  | none => simp [blockRun, without, hbindings]
  | some bindings =>
    simp only [blockRun, without, hbindings, Option.map_some]
    exact Store.read_push_filter hother _ _ bindings effort' text

/-- A statement that is a `learn` makes a procedure whose parameters are the names that it
declares. -/
theorem StatementRun.Accepts.apply_learn {i : Interpreter σ} {st : StatementRun σ}
    {announced : Machine σ} {arguments : List Actual}
    (h : st.Accepts i Command.learn announced arguments) :
    ∃ (name : String) (params : List String) (last : Argument) (code : Code),
      st.statement.arguments = .text name :: (params.map .text ++ [last]) ∧
      (∀ param ∈ params, isPlainWord param = true) ∧
      (i.dispatch (i.runner st.effort) st.frame st.statement).apply announced =
        ((Effect.create name (.code { code with params })).run st.effort st.frame :
          Action σ Flow).apply announced := by
  obtain ⟨name, params, last, code, hstatement, rfl, hwords⟩ := exists_of_validate_learn h.checked
  refine ⟨name, params, last, code, hstatement, (List.forall_mem_cons.mp hwords).2, ?_⟩
  have hcode : Actual.codeAt (.word name :: (params.map .word ++ [.value (.code code)]))
      ((Actual.word name :: (params.map .word ++ [.value (.code code)])).length - 1) =
        .ok code := by
    simp [Actual.codeAt, Actual.code?, Value.code?]
  have hparams : ((Actual.word name :: (params.map .word ++ [.value (.code code)])).drop
      1).dropLast.filterMap Actual.word? = params := by
    simp [List.filterMap_map, Function.comp_def, Actual.word?]
  rw [h.apply_dispatch, Command.learn_does.handler_run]
  simp only [hcode, hparams]
  rfl

/-- The first block of an `each` with a name has the first item. -/
theorem StatementRun.gives_first_item {i : Interpreter σ} (hregistry : i.registry = .standard)
    {st : StatementRun σ} {announced : Machine σ} {k o : String} {block : BlockId}
    {body : List Statement} {v : Value} {items : List Value}
    (hannounce : (i.hooks.announce st.statement).apply st.start = some (.ok (), announced))
    (hlabel : st.statement.label = "each")
    (harguments : st.statement.arguments = [.text k, .text o, .block block body])
    (ho : isIdentifier o = true) (hk : isPlainWord k = true)
    (hitems : announced.store.find? st.frame o = some (.array (v :: items))) :
    let inv : Invocation σ :=
      ⟨{ block, body, frame := st.frame }, some [(k, v)], false, announced⟩
    st.Invokes i inv ∧ st.declared i inv = [k] ∧ st.Gives i inv k v := by
  intro inv
  let arguments : List Actual := [.word k, .value (.array (v :: items)), .value (.code inv.code)]
  have hfound : i.registry.find? st.statement.label = some Command.eachItem := by
    rw [hregistry, hlabel]
    rfl
  have hloop (default : String) : st.statement.loopName default = k := by
    rw [Statement.loopName, harguments]
  have hchecked : validate st.effort announced.store st.frame st.statement.label
      (Command.eachItem : Command σ).signature st.statement.arguments = pure arguments := by
    rw [hlabel, harguments]
    exact (validate_each σ st.effort block body ho hk hitems rfl).1
  let call : Call σ := ⟨.body, inv.code, inv.bindings, announced,
    ((i.runner st.effort).invoke inv.code inv.bindings false).apply announced⟩
  have hcall : ((Control.eachItem.script st.effort i.settings st.frame arguments).calls
      (i.runner st.effort).invoke announced)[0]? = some call := by
    have hscript : Control.eachItem.script st.effort i.settings st.frame arguments =
        eachScript k inv.code (v :: items) := rfl
    rw [hscript, eachScript, Script.calls]
    rfl
  refine ⟨.control (c := .eachItem) hannounce hfound hchecked (List.mem_of_getElem? hcall), ?_, ?_⟩
  · simp only [declared, hfound, Option.map_some, hloop]
    rfl
  · have hgives : st.Gives i call.invocation (st.statement.loopName i.settings.eachVariable) v :=
      .item ⟨hannounce, hfound, hchecked⟩ hcall rfl rfl
    rwa [hloop] at hgives

/-- **Declared names that are identifiers can be read.** Let a statement run a block with which
names are declared, and let the parameters be distinct if it is the body of a procedure. Then each
of the names has its value for this run of the block: the counter, the item or the argument. If the
name is an identifier, it can be read where the block starts, as a path and as an expression, and it
is this value. Else nothing that is read there depends on the value.

The names that are declared by an accepted `learn` are the parameters of the procedure, and these
names and the one of an accepted loop are plain words. A plain word is an identifier if and only if
it has no point and no bracket. -/
theorem declared_identifiers_are_readable {σ : Type} (i : Interpreter σ) :
    (∀ (st : StatementRun σ) (inv : Invocation σ), st.Invokes i inv →
      (inv.procedure = true → inv.code.params.Nodup) → ∀ name ∈ st.declared i inv,
        (∃ v, st.Gives i inv name v) ∧ ∀ v, st.Gives i inv name v → ∀ effort,
          let block := inv.blockRun st.effort
          let bare := (inv.without name).blockRun st.effort
          (isIdentifier name = true →
            block.start.store.get effort block.frame name = pure v ∧
              evaluate (effort + 1) (block.start.store.environment block.frame) name = pure v) ∧
          (isIdentifier name = false → ∀ text,
            block.start.store.get effort block.frame text =
                bare.start.store.get effort bare.frame text ∧
              evaluate effort (block.start.store.environment block.frame) text =
                evaluate effort (bare.start.store.environment bare.frame) text)) ∧
    (∀ (st : StatementRun σ) (announced : Machine σ) (arguments : List Actual),
      (st.Accepts i Command.learn announced arguments →
        ∃ (name : String) (params : List String) (last : Argument) (code : Code),
        st.statement.arguments = .text name :: (params.map .text ++ [last]) ∧
        (∀ param ∈ params, isPlainWord param = true) ∧
        (i.dispatch (i.runner st.effort) st.frame st.statement).apply announced =
          ((Effect.create name (.code { code with params })).run st.effort st.frame :
            Action σ Flow).apply announced) ∧
      (st.Accepts i Command.repeatTimes announced arguments ∨
          st.Accepts i Command.eachItem announced arguments →
        st.statement.arguments.length = 3 → ∀ default,
          st.statement.arguments.head? = some (.text (st.statement.loopName default)) ∧
            isPlainWord (st.statement.loopName default) = true)) ∧
    ∀ word, isPlainWord word = true →
      (isIdentifier word = true ↔ '.' ∉ word.toList ∧ '[' ∉ word.toList) := by
  refine ⟨fun st inv hinvokes hdistinct name hname => ?_, fun st announced arguments =>
    ⟨fun haccepts => haccepts.apply_learn, fun haccepts hthree default => ?_⟩,
    fun _ => isIdentifier_iff_of_isPlainWord⟩
  · refine ⟨hinvokes.exists_gives hname, fun v hgives effort => ⟨?_, ?_⟩⟩
    · exact fun hname => hgives.read hdistinct hname st.effort effort
    · exact fun hname => inv.read_without hname st.effort effort
  · rcases haccepts with haccepts | haccepts
    · exact (loopName_of_validate haccepts.checked default).2 hthree
    · exact (loopName_of_validate haccepts.checked default).2 hthree

/-- An item is read by its name. The parameter of a `learn` is the one of the procedure. -/
theorem declared_identifiers_are_readable_item :
    let i : Interpreter Unit := { registry := .standard }
    let m : Machine Unit :=
      { store := ({} : Store).push none (some [("o", .array [.array []])]),
        outbox := { capacity := 64 }, host := () }
    let st : StatementRun Unit :=
      ⟨1, 0, ⟨"each", [.text "x", .text "o", .block ⟨0, ⟨1, 1⟩⟩ []], none, ⟨1, 1⟩⟩, m⟩
    let inv : Invocation Unit :=
      ⟨{ block := ⟨0, ⟨1, 1⟩⟩, body := [], frame := 0 }, some [("x", .array [])], false, m⟩
    let learn : StatementRun Unit :=
      ⟨1, 0, { st.statement with label := "learn" }, m⟩
    st.Invokes i inv ∧ "x" ∈ st.declared i inv ∧
      (inv.blockRun 1).start.store.get 0 (inv.blockRun 1).frame "x" = pure (.array []) ∧
      learn.Accepts i Command.learn m [.word "x", .word "o", .value (.code inv.code)] ∧
      ∃ code : Code, (i.dispatch (i.runner 1) 0 learn.statement).apply m =
        ((Effect.create "x" (.code { code with params := ["o"] })).run 1 0 :
          Action Unit Flow).apply m := by
  intro i m st inv learn
  have hitems : m.store.find? 0 "o" = some (.array [.array []]) := rfl
  obtain ⟨hinvokes, hdeclared, hgives⟩ : st.Invokes i inv ∧ st.declared i inv = ["x"] ∧
      st.Gives i inv "x" (.array []) :=
    StatementRun.gives_first_item rfl rfl rfl rfl rfl (by decide) hitems
  have hname : "x" ∈ st.declared i inv := hdeclared ▸ List.mem_singleton_self _
  have haccepts : learn.Accepts i Command.learn m
      [.word "x", .word "o", .value (.code inv.code)] := ⟨rfl, rfl, rfl⟩
  obtain ⟨hreadable, haccepted, _⟩ := declared_identifiers_are_readable i
  have hread := (hreadable st inv hinvokes (fun h => by cases h) "x" hname).2 _ hgives 0
  obtain ⟨name, params, last, code, harguments, _, hlearn⟩ := (haccepted learn m _).1 haccepts
  obtain ⟨rfl, rfl⟩ : name = "x" ∧ params = ["o"] := by
    rcases params with _ | ⟨param, _ | ⟨other, params⟩⟩
    · simp [learn, st] at harguments
    · simp only [learn, st, List.map_cons, List.map_nil, List.cons_append, List.nil_append,
        List.cons.injEq, Argument.text.injEq] at harguments
      exact ⟨harguments.1.symm, congrArg (fun param => [param]) harguments.2.1.symm⟩
    · simp [learn, st] at harguments
  exact ⟨hinvokes, hname, (hread.1 rfl).1, haccepts, code, hlearn⟩

/-- The item of an `each` whose name has a point is stored under the whole name. But the name is
read as a path, and there is no variable `a`. -/
theorem declared_path_is_not_readable :
    let i : Interpreter Unit := { registry := .standard }
    let m : Machine Unit :=
      { store := ({} : Store).push none (some [("o", .array [.array []])]),
        outbox := { capacity := 64 }, host := () }
    let st : StatementRun Unit :=
      ⟨1, 0, ⟨"each", [.text "a.b", .text "o", .block ⟨0, ⟨1, 1⟩⟩ []], none, ⟨1, 1⟩⟩, m⟩
    let inv : Invocation Unit :=
      ⟨{ block := ⟨0, ⟨1, 1⟩⟩, body := [], frame := 0 }, some [("a.b", .array [])], false, m⟩
    st.Invokes i inv ∧ st.declared i inv = ["a.b"] ∧ st.Gives i inv "a.b" (.array []) ∧
      ∀ effort, (inv.blockRun 1).start.store.get effort (inv.blockRun 1).frame "a.b" =
        throw (.missingVariable "a") := by
  intro i m st inv
  have hitems : m.store.find? 0 "o" = some (.array [.array []]) := rfl
  obtain ⟨hinvokes, hdeclared, hgives⟩ : st.Invokes i inv ∧ st.declared i inv = ["a.b"] ∧
      st.Gives i inv "a.b" (.array []) :=
    StatementRun.gives_first_item rfl rfl rfl rfl rfl (by decide) hitems
  refine ⟨hinvokes, hdeclared, hgives, fun effort => ?_⟩
  have hparts : Path.parts ['.', 'b'] = [.field "b"] := by
    rw [Path.parts]
    simp [Path.parts_nil, isIdentChar]
  have hresolve (s : Store) (id : FrameId) :
      s.resolve effort id "a.b" = pure ⟨"a", [.field "b"]⟩ := by
    have hname : isIdentifier "a" = true := rfl
    have hpath : "a.b".toList = "a".toList ++ ['.', 'b'] := rfl
    have hexpand : Path.expand (s.find? id) "a.b" = .ok "a.b".toList :=
      Path.expandFrom_of_not_mem (by decide)
    rw [Store.resolve, Path.resolve_eq_mapM hname hpath (by simp) hexpand (by decide), hparts]
    rfl
  exact Store.get_of_find?_eq_none (hresolve _ _) rfl

end Logo
