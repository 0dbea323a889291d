import Logo.Proofs.Argument.Word
import Logo.Proofs.Expression.Composition
import Logo.Proofs.Interpreter.Passing
import Logo.Proofs.Interpreter.Rounds

/-!
# Keys of objects

The names of the fields of an object come out of `keys` and of `each` as texts, each once and in the
order of the fields. Such a text leads back to its field: if a variable holds it, the object with
this variable in brackets is the value of the field, whatever the name is.
-/

namespace Logo

variable {s : Store} {id : FrameId} {effort : ℕ} {o k key : String} {v : Value}
  {fields : List (String × Value)}

/-! ## Identifiers -/

/-- A character of an identifier is no quote, parenthesis or bracket. -/
theorem Text.isDelimiter_of_isIdentChar {c : Char} (h : isIdentChar c = true) :
    isDelimiter c = false := by
  have hne : c ≠ '"' ∧ c ≠ '\'' ∧ c ≠ '(' ∧ c ≠ ')' ∧ c ≠ '[' ∧ c ≠ ']' := by
    refine ⟨?_, ?_, ?_, ?_, ?_, ?_⟩ <;> rintro rfl <;> revert h <;> decide
  simp [isDelimiter, hne]

/-- An identifier is read as a path without further parts. -/
theorem Path.reads_of_isIdentifier (h : isIdentifier o = true) : Reads o.toList := by
  have hchars : ∀ c ∈ o.toList, (c != '.' && c != '[') = true := fun c hc => by
    simp [(isIdentChar_spec (isIdentChar_of_mem h hc)).2.2]
  rw [Reads, List.takeWhile_eq_self_iff.mpr hchars, List.drop_length, parts_nil]
  exact ⟨h, by simp⟩

/-- An identifier is an expression of the value of its variable. -/
theorem evaluate_of_isIdentifier (h : isIdentifier o = true) (hv : s.find? id o = some v) :
    evaluate (effort + 1) (s.environment id) o = pure v := by
  rw [evaluate_of_reads s id effort (Path.reads_of_isIdentifier h), Store.get_of_isIdentifier h hv]

/-- Every identifier is a plain word. -/
theorem isPlainWord_of_isIdentifier (h : isIdentifier o = true) : isPlainWord o = true := by
  have hchars (cs : List Char) (hcs : ∀ c ∈ cs, isIdentChar c = true) : CountsAsPlain 0 cs := by
    induction cs with
    | nil => exact countsAsPlain_nil.mpr rfl
    | cons c cs ih =>
      obtain ⟨hc, hcs⟩ := List.forall_mem_cons.mp hcs
      have hclose : c ≠ ']' := by
        rintro rfl
        revert hc
        decide
      rw [countsAsPlain_cons, Path.depthStep_of_ne (isIdentChar_spec hc).2.2.2 hclose]
      exact ⟨fun _ => by simp [Path.isPathChar, hc], ih hcs⟩
  have hspec c (hc : c ∈ o.toList) := isIdentChar_of_mem h hc
  have hplain := (isPlainFrom_iff fun hmem => (isIdentChar_spec (hspec _ hmem)).2.1 rfl).mpr
    (hchars o.toList hspec)
  unfold isPlainWord
  unfold isIdentifier at h
  cases ho : o.toList with
  | nil =>
    rw [ho] at h
    cases h
  | cons c rest =>
    rw [ho] at h hplain
    exact Bool.and_eq_true_iff.mpr ⟨(Bool.and_eq_true_iff.mp h).1, hplain⟩

/-! ## Reading a field by a variable -/

/-- The path to the field of a variable whose name is in another variable. -/
def Path.indexed (o k : String) : String := o ++ "[" ++ k ++ "]"

/-- The path to a field by a variable consists of the two names and the brackets. -/
theorem Path.toList_indexed (o k : String) :
    (indexed o k).toList = o.toList ++ '[' :: (k.toList ++ [']']) := by
  simp [indexed]

section

variable (ho : isIdentifier o = true) (hk : isIdentifier k = true)

include ho hk

/-- There are no blanks and no names to replace in the path to a field by a variable. -/
theorem Path.char_indexed {c : Char} (hc : c ∈ (indexed o k).toList) :
    Text.isBlank c = false ∧ c ≠ '<' := by
  have hspec {x : String} (hx : isIdentifier x = true) (hc : c ∈ x.toList) :
      Text.isBlank c = false ∧ c ≠ '<' := by
    obtain ⟨hblank, hangle, -⟩ := isIdentChar_spec (isIdentChar_of_mem hx hc)
    exact ⟨hblank, hangle⟩
  simp only [toList_indexed, List.mem_append, List.mem_cons, List.not_mem_nil, or_false] at hc
  rcases hc with hc | rfl | hc | rfl
  · exact hspec ho hc
  · decide
  · exact hspec hk hc
  · decide

/-- A text in a variable leads to the field of this name. -/
theorem Store.resolve_indexed (hkey : s.find? id k = some (.ofText key)) :
    s.resolve (effort + 1) id (Path.indexed o k) = pure ⟨o, [.field key]⟩ := by
  have hexpand : Path.expand (s.find? id) (Path.indexed o k) = .ok (Path.indexed o k).toList :=
    Path.expandFrom_of_not_mem fun hmem => (Path.char_indexed ho hk hmem).2 rfl
  have htrim : Text.trim (Path.indexed o k).toList = (Path.indexed o k).toList :=
    Text.trim_of_not_blank fun c hc => (Path.char_indexed ho hk hc).1
  have hsettles : Text.Settles (fun _ => True) .outside 0 k.toList := by
    refine .of_plain fun c hc => ⟨?_, trivial⟩
    exact Text.isDelimiter_of_isIdentChar (isIdentChar_of_mem hk hc)
  have hindex : (Path.Part.index k).resolve (Path.indexed o k)
      (evaluate (effort + 1) (s.environment id)) = pure (.field key) := by
    rw [Path.Part.resolve, evaluate_of_isIdentifier hk hkey, pure_bind, Path.indexAccessor_ofText]
    rfl
  rw [resolve, Path.resolve_eq_mapM ho (Path.toList_indexed o k) (by simp) hexpand htrim,
    Path.parts_bracketed hsettles, Path.parts_nil, String.ofList_toList, List.mapM_cons, hindex]
  rfl

/-- The value of a field is read by a variable that holds its name. -/
theorem Store.get_indexed (hobject : s.find? id o = some (.object fields))
    (hkey : s.find? id k = some (.ofText key)) (hv : fields.lookup key = some v) :
    s.get (effort + 1) id (Path.indexed o k) = pure v ∧
      evaluate (effort + 2) (s.environment id) (Path.indexed o k) = pure v := by
  have hresolve : s.resolve (effort + 1) id (Path.indexed o k) = pure ⟨o, [.field key]⟩ :=
    resolve_indexed ho hk hkey
  have hread : (Value.object fields).read (Path.indexed o k) [.field key] = .ok v := by
    simp [Value.read, hv]
  have hget : s.get (effort + 1) id (Path.indexed o k) = pure v := by
    rw [get_of_find?_eq_some hresolve hobject, hread]
    rfl
  obtain ⟨expanded, hexpand, hreads⟩ := Path.exists_reads_of_resolve hresolve
  have hsame : Path.expand (s.find? id) (Path.indexed o k) = .ok (Path.indexed o k).toList :=
    Path.expandFrom_of_not_mem fun hmem => (Path.char_indexed ho hk hmem).2 rfl
  obtain rfl : (Path.indexed o k).toList = expanded := Except.ok.inj (hsame.symm.trans hexpand)
  rw [Text.trim_of_not_blank fun c hc => (Path.char_indexed ho hk hc).1] at hreads
  exact ⟨hget, (evaluate_of_reads s id (effort + 1) hreads).trans hget⟩

end

/-! ## The names of fields as values -/

/-- The expression of the names of the fields of a variable. -/
def keysOf (o : String) : String := "keys(" ++ o ++ ")"

/-- The names of the fields of a variable are compiled to a call on this variable. -/
theorem compile_keysOf (ho : isIdentifier o = true) :
    compile (keysOf o) = .ok [.call .keys, .load o] := by
  have hload : compile o = .ok [.load o] := compile_of_reads (Path.reads_of_isIdentifier ho)
  have htext : keysOf o =
      Function.keys.name ++ "(" ++ ",".intercalate (List.ofFn fun _ : Fin 1 => o) ++ ")" := by
    apply String.toList_injective
    simp [keysOf, Function.name]
  rw [htext]
  exact compile_call .keys fun _ => hload

/-- `keys` gives the names of the fields in order. -/
theorem evaluate_keysOf (ho : isIdentifier o = true)
    (hobject : s.find? id o = some (.object fields)) :
    evaluate (effort + 1) (s.environment id) (keysOf o) =
      pure (.array (fields.map fun field => .ofText field.1)) := by
  rw [evaluate_of_compile (compile_keysOf ho)]
  have hload : (s.environment id).load (evaluate effort (s.environment id)) o =
      pure (.object fields) := Store.get_of_isIdentifier ho hobject
  simp only [Instruction.runAll, List.reverse_cons, List.reverse_nil, List.nil_append,
    List.singleton_append, List.foldlM_cons, List.foldlM_nil, Instruction.run, hload, pure_bind]
  rfl

section Each

variable {σ : Type} {i : Interpreter σ} {m : Machine σ} {st : Statement}

/-- The arguments of a loop over the value of a variable, with or without a name for what it runs
over. -/
theorem validate_loop {subject : Categories} (hword : subject.word = false)
    (hexpression : subject.expression = false) (command : String) (effort : ℕ) (block : BlockId)
    (body : List Statement) (ho : isIdentifier o = true) (hk : isPlainWord k = true)
    (hv : s.find? id o = some v)
    (haccepts : (subject ∪ { reference := true }).accepts v = true) :
    let signature := Command.loopSignature subject
    let code : Actual := .value (.code { block, body, frame := id })
    validate effort s id command signature [.text k, .text o, .block block body] =
        pure [.word k, .value v, code] ∧
      validate effort s id command signature [.text o, .block block body] =
        pure [.value v, code] := by
  intro signature code
  have hname : checkArgument effort s id ⟨command, 0, signature.permitted 0 3⟩ (.text k) =
      pure (.word k) :=
    (checkArgument_word effort s id command 0 k).trans (if_pos hk)
  have hdata (index total : ℕ)
      (hpermitted : signature.permitted index total = subject ∪ { reference := true }) :
      checkArgument effort s id ⟨command, index, signature.permitted index total⟩ (.text o) =
        pure (.value v) := by
    have hget : s.get effort id o = pure v := Store.get_of_isIdentifier ho hv
    have hnamed : ((subject ∪ { reference := true }).reference ||
        (subject ∪ { reference := true }).code) = true :=
      Bool.or_eq_true_iff.mpr (.inl (Bool.or_true _))
    rw [hpermitted, checkArgument, checkText_of_get (isPlainWord_of_isIdentifier ho)
      (Bool.or_eq_false_iff.mpr ⟨hword, rfl⟩) (Bool.or_eq_false_iff.mpr ⟨hexpression, rfl⟩) hnamed
      hget, Demand.accept, if_pos haccepts]
    rfl
  have hblock (index total : ℕ) (hpermitted : signature.permitted index total = { code := true }) :
      checkArgument effort s id ⟨command, index, signature.permitted index total⟩
        (.block block body) = pure code := by
    rw [hpermitted]
    rfl
  have hcount : signature.checkCount command 3 = .ok () ∧
      signature.checkCount command 2 = .ok () := ⟨rfl, rfl⟩
  constructor
  · simp only [validate, List.length_cons, List.length_nil, Nat.zero_add, Nat.reduceAdd,
      List.zipIdx_cons, List.zipIdx_nil, List.mapM_cons, List.mapM_nil, hcount, hname,
      hdata 1 3 rfl, hblock 2 3 rfl, Eval.liftM_ok_bind, pure_bind]
  · simp only [validate, List.length_cons, List.length_nil, Nat.zero_add, Nat.reduceAdd,
      List.zipIdx_cons, List.zipIdx_nil, List.mapM_cons, List.mapM_nil, hcount,
      hdata 0 2 rfl, hblock 1 2 rfl, Eval.liftM_ok_bind, pure_bind]

/-- An `each` with a plain word, a variable with data and a block is accepted, with the value of the
variable. -/
theorem validate_each (σ : Type) (effort : ℕ) (block : BlockId) (body : List Statement)
    (ho : isIdentifier o = true) (hk : isPlainWord k = true) (hv : s.find? id o = some v)
    (haccepts : Categories.accepts { array := true, reference := true } v = true) :
    let signature := (Command.eachItem : Command σ).signature
    let code : Actual := .value (.code { block, body, frame := id })
    validate effort s id "each" signature [.text k, .text o, .block block body] =
        pure [.word k, .value v, code] ∧
      validate effort s id "each" signature [.text o, .block block body] =
        pure [.value v, code] :=
  validate_loop rfl rfl "each" effort block body ho hk hv haccepts

/-- An `each` over the fields of a variable runs its block for their names in order. -/
theorem apply_dispatch_each (hregistry : i.registry = .standard) (hlabel : st.label = "each")
    {block : BlockId} {body : List Statement}
    (harguments : st.arguments = [.text k, .text o, .block block body] ∨
      k = i.settings.eachVariable ∧ st.arguments = [.text o, .block block body])
    (ho : isIdentifier o = true) (hk : isIdentifier k = true)
    (hobject : m.store.find? id o = some (.object fields)) :
    (i.dispatch (i.runner effort) id st).apply m =
      (eachLoop (fun v => (i.runner effort).invoke { block, body, frame := id } (some [(k, v)])
        false) (fields.map fun field => .ofText field.1)).apply m := by
  have hcommand : i.registry.find? st.label = some Command.eachItem := by
    rw [hregistry, hlabel]
    rfl
  obtain ⟨hnamed, hunnamed⟩ :=
    validate_each σ effort block body ho (isPlainWord_of_isIdentifier hk) hobject rfl
  rw [Interpreter.apply_dispatch_command hcommand, hlabel]
  rcases harguments with harguments | ⟨rfl, harguments⟩
  · rw [harguments, hnamed]
    rfl
  · rw [harguments, hunnamed]
    rfl

end Each

/-! ## Variables for keys -/

/-- In a frame that is written, only the written variable is found with another value. -/
theorem Frame.find?_written (id : FrameId) (name other : String) (v : Value) (f : Frame) :
    (f.written id name v).find? other =
      if f.id = id ∧ other = name then some v else f.find? other := by
  by_cases hid : f.id = id
  · by_cases hname : other = name
    · subst hid hname
      rw [find?_written_self, if_pos ⟨rfl, rfl⟩]
    · simp [written, hid, find?, lookup_putField, hname]
  · rw [written_of_ne hid, if_neg fun h => hid h.1]

/-- A chain of frames that starts at a number starts with the frame of this number. -/
theorem Frame.id_of_chain {fs : List Frame} {f : Frame} {rest : List Frame}
    (h : chain fs (some id) = f :: rest) : f.id = id := by
  induction fs with
  | nil => cases h
  | cons g fs ih =>
    unfold chain at h
    split at h
    · next hid =>
      obtain ⟨rfl, _⟩ := List.cons.inj h
      exact hid
    · exact ih h

/-- A variable that is made in a frame has its value there, and other variables have theirs. -/
theorem Store.find?_write (h : s.chain id ≠ []) (name other : String) (v : Value) :
    (s.write id name v).find? id other = if other = name then some v else s.find? id other := by
  obtain ⟨f, rest, hchain⟩ := List.exists_cons_of_ne_nil h
  have hid : f.id = id := Frame.id_of_chain hchain
  rw [find?, chain_write, hchain, List.map_cons, List.findSome?_cons, Frame.find?_written]
  by_cases hname : other = name
  · simp [hid, hname]
  · have hrest : (rest.map (Frame.written id name v)).findSome? (·.find? other) =
        rest.findSome? (·.find? other) := by
      rw [List.findSome?_map]
      congr 1
      funext g
      simp [Frame.find?_written, hname]
    rw [if_neg fun h => hname h.2, if_neg hname, hrest, find?, hchain, List.findSome?_cons]

/-- **Keys lead back to their fields.** Let a variable hold an object, in a store without objects
that have two fields of one name. `keys` of the variable gives the texts of the names of the fields,
each once and in order. An `each` over the variable runs one round for each of these texts, in order
and up to the first round that fails or leaves. If a variable of another name holds such a text, by
any means, then the object with this variable in brackets is the value of the field, as a path and
as an expression. In particular this is so in the frame of each round as long as the rounds before
it have left the object as it was, and after the variable was made. -/
theorem keys_lead_to_fields {σ : Type} {i : Interpreter σ} (hregistry : i.registry = .standard)
    {m : Machine σ} (hm : m.store.Tidy) {id : FrameId} {o k : String}
    (ho : isIdentifier o = true) (hk : isIdentifier k = true) (hne : k ≠ o)
    {fields : List (String × Value)} (hobject : m.store.find? id o = some (.object fields)) :
    let names := fields.map Prod.fst
    let reads (s : Store) (id : FrameId) (v : Value) : Prop := ∀ effort,
      s.get (effort + 1) id (Path.indexed o k) = pure v ∧
        evaluate (effort + 2) (s.environment id) (Path.indexed o k) = pure v
    names.Nodup ∧ (names.map Value.ofText).map Value.text? = names.map some ∧
      (∀ effort, evaluate (effort + 1) (m.store.environment id) (keysOf o) =
        pure (.array (names.map .ofText))) ∧
      (∀ (st : Statement) (block : BlockId) (body : List Statement), st.label = "each" →
        (st.arguments = [.text k, .text o, .block block body] ∨
          k = i.settings.eachVariable ∧ st.arguments = [.text o, .block block body]) →
        let code : Code := { block, body, frame := id }
        ∀ effort, (∀ r left, (i.dispatch (i.runner effort) id st).apply m = some (r, left) ↔
            Loops i effort k code (names.map .ofText) m r left) ∧
          ∀ before key after m₁ v, names = before ++ key :: after →
            Rounds i effort k code (before.map .ofText) m m₁ → fields.lookup key = some v →
            m₁.store.find? id o = some (.object fields) →
            reads (m₁.store.push (some id) (some [(k, .ofText key)])) m₁.store.next v) ∧
      ∀ key v, fields.lookup key = some v → ∀ (s : Store) (id : FrameId),
        s.find? id o = some (.object fields) →
          (s.find? id k = some (.ofText key) → reads s id v) ∧
          ∀ effort, ∃ s', s.create effort id k (.ofText key) = pure s' ∧ reads s' id v := by
  intro names reads
  have hnames : (fields.map fun field => Value.ofText field.1) = names.map .ofText := by
    rw [List.map_map]
    rfl
  have hreads {key : String} {v : Value} (hv : fields.lookup key = some v) (s : Store)
      (id : FrameId) (hs : s.find? id o = some (.object fields))
      (hkey : s.find? id k = some (.ofText key)) : reads s id v :=
    fun _ => Store.get_indexed ho hk hs hkey hv
  refine ⟨hm.nodup hobject, ?_, fun effort => ?_, fun st block body hlabel harguments => ?_,
    fun key v hv s id hs => ⟨hreads hv s id hs, fun effort => ?_⟩⟩
  · rw [List.map_map]
    exact List.map_congr_left fun name _ => Value.text?_ofText name
  · rw [evaluate_keysOf ho hobject, hnames]
  · intro code effort
    refine ⟨fun r left => ?_, fun before key after m₁ v _ _ hv hs => hreads hv _ _ ?_ ?_⟩
    · rw [apply_dispatch_each hregistry hlabel harguments ho hk hobject, hnames,
        apply_eachLoop_iff]
    · rw [Store.find?_push]
      simpa [List.lookup_cons, beq_eq_false_iff_ne.mpr hne.symm] using hs
    · rw [Store.find?_push]
      simp
  · have hchain : s.chain id ≠ [] := by
      intro hnil
      rw [Store.find?, hnil] at hs
      cases hs
    refine ⟨_, Store.create_of_isIdentifier s effort id hk _, hreads hv _ _ ?_ ?_⟩
    · rw [Store.find?_write hchain, if_neg hne.symm, hs]
    · rw [Store.find?_write hchain, if_pos rfl]

/-- `print` with a path as its argument shows the value of the path. -/
theorem outcome_print {σ : Type} {i : Interpreter σ} (hregistry : i.registry = .standard)
    (hhooks : i.hooks = .none) {st : StatementRun σ} {path : String}
    (hlabel : st.statement.label = "print") (harguments : st.statement.arguments = [.text path])
    (htarget : st.statement.target = none) (hplain : isPlainWord path = true)
    (hget : st.start.store.get st.effort st.frame path = pure v) :
    st.outcome i = some (.ok (.next none), { st.start with
      outbox := st.start.outbox.push ⟨"console.print", .record [("text", .text v.text)]⟩ }) := by
  have hannounce : (i.hooks.announce st.statement).apply st.start = some (.ok (), st.start) := by
    rw [hhooks]
    rfl
  have hcommand : i.registry.find? st.statement.label = some Command.print := by
    rw [hregistry, hlabel]
    rfl
  have hcheck : checkText st.effort st.start.store st.frame ⟨"print", 0, .value⟩ path =
      pure (.value v) := by
    have haccepts : Categories.value.accepts v = true := by cases v <;> rfl
    rw [checkText_of_get hplain rfl rfl rfl hget, Demand.accept, if_pos haccepts]
    rfl
  have hchecked : validate st.effort st.start.store st.frame st.statement.label
      (Command.print : Command σ).signature st.statement.arguments = pure [.value v] := by
    rw [hlabel, harguments]
    exact congrArg (fun e => e >>= fun a => pure [a]) hcheck
  have hdispatch := apply_dispatch_of_command (i.runner st.effort) hcommand hchecked
  rw [StatementRun.outcome_eq, hannounce, Action.continueWith_ok, hdispatch]
  simp only [Interpreter.bindTarget, htarget]
  rfl

/-- The names of the fields are empty, no identifiers, or spelled like a path or a number. -/
theorem keys_lead_to_fields_unusual :
    let fields : List (String × Value) :=
      [("", .ofText "none"), ("é", .array []), ("o[k]", .object []), ("12", .ofText "dozen")]
    let s : Store := ({} : Store).push none (some [("o", .object fields)])
    let m : Machine Unit := { store := s, outbox := { capacity := 64 }, host := () }
    let i : Interpreter Unit := { registry := .standard }
    let body : List Statement := [⟨"print", [.text "o[k]"], none, .start⟩]
    let each : Statement :=
      ⟨"each", [.text "k", .text "o", .block ⟨0, .start⟩ body], none, .start⟩
    m.store.Tidy ∧ m.store.find? 0 "o" = some (.object fields) ∧
      evaluate 1 (s.environment 0) "keys(o)" =
        pure (.array [.ofText "", .ofText "é", .ofText "o[k]", .ofText "12"]) ∧
      Path.indexed "o" "k" = "o[k]" ∧
      (∃ s', s.create 0 0 "k" (.ofText "") = pure s' ∧ s'.get 1 0 "o[k]" = pure (.ofText "none")) ∧
      ∃ left, (i.dispatch (i.runner 2) 0 each).apply m = some (.ok (.next none), left) ∧
        left.outbox.pending = fields.map fun field =>
          ⟨"console.print", .record [("text", .text field.2.text)]⟩ := by
  intro fields s m i body each
  have htext (t : String) : (Value.ofText t).Tidy := Value.hereditary_tidy.ofText t
  have hfields : (Value.object fields).Tidy := by
    refine .object (by decide) ?_
    simp only [fields, List.forall_mem_cons]
    exact ⟨htext _, .array (by simp), .object (by simp) (by simp), htext _, by simp⟩
  have hm : m.store.Tidy := Store.All.push Store.tidy_empty none (by simpa using hfields)
  have hobject : m.store.find? 0 "o" = some (.object fields) := rfl
  obtain ⟨_, _, hkeys, heach, hreads⟩ :=
    keys_lead_to_fields (i := i) rfl hm rfl rfl (by decide : "k" ≠ "o") hobject
  obtain ⟨s', hs', hget⟩ := (hreads "" _ rfl s 0 rfl).2 0
  obtain ⟨hloops, hframes⟩ := heach each ⟨0, .start⟩ body rfl (.inl rfl) 2
  let code : Code := { block := ⟨0, .start⟩, body, frame := 0 }
  let entered (m : Machine Unit) (key : String) : Machine Unit :=
    { m with store := m.store.push (some 0) (some [("k", .ofText key)]) }
  let printed (m : Machine Unit) (v : Value) : Machine Unit :=
    { m with outbox := m.outbox.push ⟨"console.print", .record [("text", .text v.text)]⟩ }
  have hround (before after : List String) {key : String} {m₁ : Machine Unit} {v : Value}
      (hnames : fields.map Prod.fst = before ++ key :: after)
      (hbefore : Rounds i 2 "k" code (before.map .ofText) m m₁) (hv : fields.lookup key = some v)
      (hs : m₁.store.find? 0 "o" = some (.object fields)) (hlive : m₁.store.isLive 0 = true)
      (hdepth : m₁.depth = 0) :
      Round i 2 "k" code (.ofText key) m₁ (.ok (.next none))
        ((printed { entered m₁ key with depth := 1 } v).rise.dropFrame m₁.store.next) := by
    have hget := (hframes before key after m₁ v hnames hbefore hv hs 0).1
    let st : StatementRun Unit := ⟨1, m₁.store.next, ⟨"print", [.text "o[k]"], none, .start⟩,
      { entered m₁ key with depth := 1 }⟩
    have hplain : isPlainWord "o[k]" = true := by decide +kernel
    have hprint : st.outcome i = some (.ok (.next none), printed st.start v) :=
      outcome_print rfl rfl rfl rfl rfl hplain hget
    exact .of_statement rfl hlive (by rw [hdepth]; decide) rfl (hdepth ▸ hprint)
  have h₁ := hround [] ["é", "o[k]", "12"] rfl (.nil m) rfl rfl rfl rfl
  have h₂ := hround [""] ["o[k]", "12"] rfl (.cons h₁ (.nil _)) rfl rfl rfl rfl
  have h₃ := hround ["", "é"] ["12"] rfl (.cons h₁ (.cons h₂ (.nil _))) rfl rfl rfl rfl
  have h₄ := hround ["", "é", "o[k]"] [] rfl (.cons h₁ (.cons h₂ (.cons h₃ (.nil _)))) rfl rfl rfl
    rfl
  have hrounds := Rounds.cons h₁ (.cons h₂ (.cons h₃ (.cons h₄ (.nil _))))
  exact ⟨hm, hobject, hkeys 0, rfl, ⟨s', hs', (hget 0).1⟩, _, (hloops _ _).mpr (.finished hrounds),
    rfl⟩

end Logo
