import Logo.Proofs.Evaluation.Brackets
import Logo.Proofs.Evaluation.Codes
import Logo.Proofs.Expression.Sketch
import Mathlib.Data.Nat.Notation

/-!
# Where faults come from

A fault belongs to a stage of work, and a computation has faults of its own stages only: compiling
an expression has faults of expressions, evaluating one or writing a variable also faults of
references, and checking arguments also faults of arguments.
-/

namespace Logo

variable {α β : Type} {P Q : Fault → Prop}

/-! ## Faults of computations -/

/-- Whether the fault of a computation, if it has one, is of a kind. -/
def Raises (P : Fault → Prop) (e : Except Fault α) : Prop := ∀ fault, e = .error fault → P fault

namespace Raises

/-- Faults of one kind are faults of every wider kind. -/
theorem mono {e : Except Fault α} (h : Raises P e) (hPQ : ∀ fault, P fault → Q fault) :
    Raises Q e :=
  fun fault hfault => hPQ fault (h fault hfault)

/-- A success raises no fault. -/
@[simp] theorem ok (a : α) : Raises P (.ok a) := by
  simp [Raises]

/-- A failure raises faults of a kind exactly if its own fault is of this kind. -/
@[simp] theorem error_iff {fault : Fault} : Raises P (.error fault : Except Fault α) ↔ P fault := by
  simp [Raises]

/-- Mapping the value of a computation does not change its fault. -/
@[simp] theorem map_iff {e : Except Fault α} {f : α → β} : Raises P (e.map f) ↔ Raises P e := by
  cases e with
  | error fault => simp [Except.map]
  | ok a => simp [Except.map]

/-- Two computations in a row raise faults of a kind if both of them do. -/
theorem bind {e : Except Fault α} {f : α → Except Fault β} (he : Raises P e)
    (hf : ∀ a, Raises P (f a)) : Raises P (e >>= f) := by
  cases e with
  | error fault => exact error_iff.mpr (error_iff.mp he)
  | ok a => exact hf a

/-- Computations over a list raise faults of a kind if each of them does. -/
theorem mapM {f : α → Except Fault β} (hf : ∀ a, Raises P (f a)) (as : List α) :
    Raises P (as.mapM f) := by
  induction as with
  | nil => exact .ok _
  | cons a as ih =>
    rw [List.mapM_cons]
    exact (hf a).bind fun _ => ih.bind fun _ => .ok _

end Raises

/-- Whether the fault of an evaluation, if it has one, is of a kind. -/
def Eval.Raises (P : Fault → Prop) (e : Eval α) : Prop := ∀ fault, e = throw fault → P fault

namespace Eval.Raises

/-- Faults of one kind are faults of every wider kind. -/
theorem mono {e : Eval α} (h : e.Raises P) (hPQ : ∀ fault, P fault → Q fault) : e.Raises Q :=
  fun fault hfault => hPQ fault (h fault hfault)

/-- An evaluation that has a value raises no fault. -/
theorem pure (a : α) : (Pure.pure a : Eval α).Raises P := by
  intro fault h
  cases h

/-- An evaluation that fails raises faults of a kind if its own fault is of this kind. -/
theorem throw {fault : Fault} (h : P fault) : (MonadExcept.throw fault : Eval α).Raises P := by
  intro fault' h'
  cases h'
  exact h

/-- An evaluation that ran out of effort raises no fault. -/
theorem exhausted : (exhausted : Eval α).Raises P := by
  intro fault h
  cases h

/-- A computation raises the same faults when it is taken for an evaluation. -/
theorem lift {e : Except Fault α} (h : Logo.Raises P e) : (liftM e : Eval α).Raises P := by
  intro fault hfault
  cases e with
  | error fault' =>
    cases hfault
    exact Logo.Raises.error_iff.mp h
  | ok a => cases hfault

/-- Two evaluations in a row raise faults of a kind if both of them do. -/
theorem bind {e : Eval α} {f : α → Eval β} (he : e.Raises P) (hf : ∀ a, (f a).Raises P) :
    (e >>= f).Raises P := by
  rcases e.cases_outcome with rfl | ⟨fault, rfl⟩ | ⟨a, rfl⟩
  · exact exhausted
  · exact throw (he fault rfl)
  · rw [pure_bind]
    exact hf a

/-- Evaluations over a list raise faults of a kind if each of them does. -/
theorem mapM {f : α → Eval β} {as : List α} (hf : ∀ a ∈ as, (f a).Raises P) :
    (as.mapM f).Raises P := by
  induction as with
  | nil => exact pure _
  | cons a as ih =>
    obtain ⟨ha, has⟩ := List.forall_mem_cons.mp hf
    rw [List.mapM_cons]
    exact ha.bind fun _ => (ih has).bind fun _ => pure _

/-- Evaluations that are folded over a list raise faults of a kind if each of them does. -/
theorem foldlM {f : β → α → Eval β} {as : List α} (hf : ∀ a ∈ as, ∀ b, (f b a).Raises P)
    (b : β) : (as.foldlM f b).Raises P := by
  induction as generalizing b with
  | nil => exact pure _
  | cons a as ih =>
    obtain ⟨ha, has⟩ := List.forall_mem_cons.mp hf
    rw [List.foldlM_cons]
    exact (ha b).bind (ih has)

/-- Operands that are evaluated from the last to the first raise faults of a kind if each of them
does. -/
theorem rightToLeft {n : ℕ} {evaluations : Fin n → Eval α} (h : ∀ k, (evaluations k).Raises P) :
    (Eval.rightToLeft evaluations).Raises P := by
  induction n with
  | zero => exact pure _
  | succ n ih => exact (ih fun k => h k.succ).bind fun _ => (h 0).bind fun _ => pure _

end Eval.Raises

/-! ## Kinds of faults -/

/-- Whether a fault is one of the form of an expression. -/
def Fault.IsSyntax : Fault → Prop
  | unbalancedGrouping .. | malformedExpression .. | unknownFunction .. | functionArity ..
  | mixedLiteral .. => True
  | _ => False

/-- Whether a fault is one of an operator or a function on its operands. -/
def Fault.IsOperation : Fault → Prop
  | typeMismatch .. | divisionByZero => True
  | _ => False

/-- Whether a fault is one of an expression. -/
def Fault.IsExpression (f : Fault) : Prop := f.stage = .expression

/-- Whether a fault is one of a variable. -/
def Fault.IsReference (f : Fault) : Prop := f.stage = .reference

/-- Whether a fault can arise when an expression is evaluated or a variable is written. -/
def Fault.IsEvaluation (f : Fault) : Prop := f.stage = .expression ∨ f.stage = .reference

/-- Whether a fault can arise when an argument is checked. -/
def Fault.IsArgument (f : Fault) : Prop := f.IsEvaluation ∨ f.stage = .argument

/-- Only a block can fail because its frame is gone. -/
theorem Fault.IsArgument.ne_expiredScope {f : Fault} (h : f.IsArgument) : f ≠ .expiredScope := by
  rintro rfl
  simp [IsArgument, IsEvaluation, stage] at h

/-- No expression and no variable has the fault of code that has outlived its frame. -/
theorem Fault.IsEvaluation.ne_expiredScope {f : Fault} (h : f.IsEvaluation) : f ≠ .expiredScope :=
  IsArgument.ne_expiredScope (.inl h)

/-- Faults of expressions are those of their form and those of operands. -/
theorem Fault.isExpression_iff {f : Fault} : f.IsExpression ↔ f.IsSyntax ∨ f.IsOperation := by
  cases f <;> simp [IsExpression, IsSyntax, IsOperation, stage]

/-- The form of an expression is no matter of its operands. -/
theorem Fault.IsSyntax.not_isOperation {f : Fault} (h : f.IsSyntax) : ¬f.IsOperation := by
  cases f <;> simp_all [IsSyntax, IsOperation]

/-- The form of an expression is no matter of its variables. -/
theorem Fault.IsSyntax.not_isReference {f : Fault} (h : f.IsSyntax) : ¬f.IsReference := by
  cases f <;> simp_all [IsSyntax, IsReference, stage]

/-! ## Compiling -/

/-- Cutting an expression into atoms fails by its form only. -/
theorem raises_splitAtoms (expression : String) :
    Raises Fault.IsSyntax (splitAtoms expression) := by
  have h mode atom cs : Raises Fault.IsSyntax (splitAtomsFrom expression mode atom cs) := by
    fun_induction splitAtomsFrom expression mode atom cs with
    | case1 mode atom fault hfault =>
      rw [Raises.error_iff]
      cases mode with
      | free => cases hfault
      | literal mode => cases mode <;> cases hfault <;> trivial
      | bracket | name =>
        cases hfault
        trivial
    | case2 => exact .ok _
    | case4 => exact Raises.error_iff.mpr trivial
    | case5 | case6 => simpa
    | case3 | case7 | case8 => assumption
  exact h _ _ _

/-- A word is read as a lexeme or fails by its form. -/
theorem raises_ofWord (atom : String) (next : Option String) :
    Raises Fault.IsSyntax (Lexeme.ofWord atom next) := by
  unfold Lexeme.ofWord
  split
  · split
    · exact .ok _
    · exact Raises.error_iff.mpr trivial
  · exact .ok _

/-- An atom is read as a lexeme or fails by its form. -/
theorem raises_ofAtom (expression : String) (afterValue : Bool) (atom : String)
    (next : Option String) :
    Raises Fault.IsSyntax (Lexeme.ofAtom expression afterValue atom next) := by
  have hoperator c : Raises Fault.IsSyntax (Lexeme.ofOperator expression afterValue c) := by
    unfold Lexeme.ofOperator
    split
    · split
      · exact .ok _
      · exact Raises.error_iff.mpr trivial
    · split
      · exact .ok _
      · exact Raises.error_iff.mpr trivial
  unfold Lexeme.ofAtom
  split
  · split
    · exact .ok _
    · split
      · exact .ok _
      · split
        · exact .ok _
        · split
          · exact hoperator _
          · exact raises_ofWord atom next
  · exact raises_ofWord atom next

/-- Atoms are classified or fail by their form. -/
theorem raises_classify (expression : String) (atoms : List String) :
    Raises Fault.IsSyntax (classify expression atoms) := by
  have h afterValue atoms :
      Raises Fault.IsSyntax (classifyFrom expression afterValue atoms) := by
    fun_induction classifyFrom expression afterValue atoms with
    | case1 => exact .ok _
    | case2 afterValue atom rest fault hfault =>
      exact Raises.error_iff.mpr (raises_ofAtom _ _ _ _ fault hfault)
    | case3 => exact Raises.error_iff.mpr trivial
    | case4 => simpa
  exact h false atoms

/-- Lexemes are put in Polish order or fail by their form. -/
theorem raises_polish (expression : String) (lexemes : List Lexeme) :
    Raises Fault.IsSyntax (polish expression lexemes) := by
  have h lexemes stack output :
      Raises Fault.IsSyntax (polishFrom expression lexemes stack output) := by
    fun_induction polishFrom expression lexemes stack output with
    | case1 => exact .ok _
    | case2 | case7 | case9 | case10 | case12 | case13 | case14 =>
      exact Raises.error_iff.mpr trivial
    | case3 | case4 | case5 | case6 | case8 | case11 | case15 => assumption
  exact h _ _ _

/-- The body of a literal is decoded or fails by its form. -/
theorem raises_unescapeIn (expression : String) (body : List Char) :
    Raises Fault.IsSyntax (unescapeIn expression body) := by
  unfold unescapeIn
  split
  · exact .ok _
  · exact Raises.error_iff.mpr trivial
  · exact Raises.error_iff.mpr trivial

/-- A literal in brackets is lowered or fails by its form. -/
theorem raises_ofBrackets (expression literal : String) (body : List Char) :
    Raises Fault.IsSyntax (Instruction.ofBrackets expression literal body) := by
  have hread cs : Raises Fault.IsSyntax (Element.read expression cs) := by
    unfold Element.read
    split
    · dsimp only
      split
      · exact .ok _
      · split
        · exact Raises.map_iff.mpr (raises_unescapeIn _ _)
        · exact .ok _
    · exact .ok _
  have hall parts : Raises Fault.IsSyntax (Element.readAll expression literal parts) := by
    fun_induction Element.readAll expression literal parts with
    | case1 => exact .ok _
    | case2 => exact Raises.error_iff.mpr trivial
    | case3 part rest _ fault hfault => exact Raises.error_iff.mpr (hread _ fault hfault)
    | case4 => simpa
  unfold Instruction.ofBrackets
  split
  · exact .ok _
  · split
    · next fault hfault => exact Raises.error_iff.mpr (hall _ fault hfault)
    · split
      · exact Raises.error_iff.mpr trivial
      · exact .ok _
      · exact .ok _

/-- An operand is lowered or fails by its form. -/
theorem raises_ofOperand (expression atom : String) :
    Raises Fault.IsSyntax (Instruction.ofOperand expression atom) := by
  unfold Instruction.ofOperand
  dsimp only
  split
  · exact Raises.error_iff.mpr trivial
  · split
    · split
      · exact Raises.map_iff.mpr (raises_unescapeIn _ _)
      · exact Raises.error_iff.mpr trivial
    · split
      · split
        · exact Raises.map_iff.mpr (raises_unescapeIn _ _)
        · exact Raises.error_iff.mpr trivial
      · split
        · split
          · exact raises_ofBrackets _ _ _
          · exact Raises.error_iff.mpr trivial
        · split
          · split
            · exact .ok _
            · exact Raises.error_iff.mpr trivial
          · split
            · exact .ok _
            · exact Raises.error_iff.mpr trivial

/-- Instructions that do not leave one value on the stack fail by their form. -/
theorem raises_checkStack (expression : String) (instructions : List Instruction) :
    Raises Fault.IsSyntax (Instruction.checkStack expression instructions) := by
  have hdepth instructions :
      Raises Fault.IsSyntax (Instruction.stackDepth expression instructions) := by
    fun_induction Instruction.stackDepth expression instructions with
    | case1 => exact .ok _
    | case2 i rest fault hfault ih => exact Raises.error_iff.mpr (ih fault hfault)
    | case3 => exact .ok _
    | case4 => exact Raises.error_iff.mpr trivial
  unfold Instruction.checkStack
  split
  · next fault hfault => exact Raises.error_iff.mpr (hdepth _ fault hfault)
  · exact .ok _
  · exact Raises.error_iff.mpr trivial
  · exact Raises.error_iff.mpr trivial

/-- Compiling an expression has faults of its form only. -/
theorem raises_compile (expression : String) : Raises Fault.IsSyntax (compile expression) := by
  have hitem item : Raises Fault.IsSyntax (Instruction.ofItem expression item) := by
    cases item with
    | operand atom => exact raises_ofOperand expression atom
    | unary | binary | call => exact .ok _
  refine (raises_splitAtoms expression).bind fun atoms => ?_
  refine (raises_classify expression atoms).bind fun lexemes => ?_
  refine (raises_polish expression lexemes).bind fun items => ?_
  refine (Raises.mapM hitem items).bind fun instructions => ?_
  exact (raises_checkStack expression instructions).bind fun _ => .ok _

/-! ## Evaluating -/

/-- A prefix operator fails by its operand only. -/
theorem raises_unaryApply (op : UnaryOp) (v : Value) : Raises Fault.IsOperation (op.apply v) := by
  unfold UnaryOp.apply
  split
  · exact .ok _
  · exact .ok _
  · exact .ok _
  · exact Raises.error_iff.mpr trivial

/-- A binary operator fails by its operands only. -/
theorem raises_binaryApply (op : BinaryOp) (a b : Value) :
    Raises Fault.IsOperation (op.apply a b) := by
  have hrange x y : Raises Fault.IsOperation (rangeValue x y) := by
    unfold rangeValue
    dsimp only
    split
    · split
      · exact Raises.error_iff.mpr trivial
      · exact .ok _
    · exact Raises.error_iff.mpr trivial
  have hnumbers x y : Raises Fault.IsOperation (op.applyNumbers x y) := by
    cases op with
    | divide | remainder =>
      simp only [BinaryOp.applyNumbers]
      split
      · exact Raises.error_iff.mpr trivial
      · exact .ok _
    | range => exact hrange x y
    | subtract | multiply | less | greater | add | equal | and | or => exact .ok _
  unfold BinaryOp.apply
  split
  · exact .ok _
  · exact .ok _
  · exact .ok _
  · split
    · exact .ok _
    · exact .ok _
    · exact Raises.error_iff.mpr trivial
  · split
    · exact hnumbers _ _
    · exact Raises.error_iff.mpr trivial

/-- A function fails by its operands only. -/
theorem raises_functionApply (f : Function) (operands : List Value) :
    Raises Fault.IsOperation (f.apply operands) := by
  have hnumber (f : Function) v : Raises Fault.IsOperation (f.number v) := by
    unfold Function.number
    split
    · exact .ok _
    · exact Raises.error_iff.mpr trivial
  have hnumbers (f : Function) v : Raises Fault.IsOperation (f.numbers v) := by
    unfold Function.numbers
    split
    · exact .ok _
    · exact Raises.error_iff.mpr trivial
  have hon (f : Function) g v : Raises Fault.IsOperation (f.onNumber g v) :=
    (hnumber f v).bind fun _ => .ok _
  have hon₂ (f : Function) g v w : Raises Fault.IsOperation (f.onNumbers g v w) :=
    (hnumber f v).bind fun _ => (hnumber f w).bind fun _ => .ok _
  have hinterpolate a b t : Raises Fault.IsOperation (Function.interpolateValue a b t) := by
    unfold Function.interpolateValue
    dsimp only
    split
    · exact .ok _
    · refine (hnumbers _ _).bind fun xs => (hnumbers _ _).bind fun ys => ?_
      split
      · exact .ok _
      · exact Raises.error_iff.mpr trivial
  have hread v : Raises Fault.IsOperation (Function.readNumber v) := by
    unfold Function.readNumber
    split
    · exact .ok _
    · split
      · exact Raises.error_iff.mpr trivial
      · split
        · exact .ok _
        · exact Raises.error_iff.mpr trivial
  have hnothing : Raises Fault.IsOperation (.error (.typeMismatch f.name .aNumber .nothing) :
      Except Fault Value) := Raises.error_iff.mpr trivial
  cases f with
  | abs | sqrt | round | floor | ceil | sin | cos | tan | sign =>
    rcases operands with _ | ⟨v, _ | ⟨_, _⟩⟩
    · exact hnothing
    · exact hon _ _ v
    · exact hnothing
  | pow | min | max | atan2 =>
    rcases operands with _ | ⟨v, _ | ⟨w, _ | ⟨_, _⟩⟩⟩
    · exact hnothing
    · exact hnothing
    · exact hon₂ _ _ v w
    · exact hnothing
  | vecsize =>
    rcases operands with _ | ⟨v, _ | ⟨_, _⟩⟩
    · exact hnothing
    · exact (hnumbers _ v).bind fun _ => .ok _
    · exact hnothing
  | length | keys =>
    rcases operands with _ | ⟨_ | _ | _ | _, _ | ⟨_, _⟩⟩ <;>
      simp [Function.apply, Fault.IsOperation]
  | interpolate =>
    rcases operands with _ | ⟨v, _ | ⟨w, _ | ⟨t, _ | ⟨_, _⟩⟩⟩⟩
    · exact hnothing
    · exact hnothing
    · exact hnothing
    · exact (hnumber _ t).bind fun _ => hinterpolate v w _
    · exact hnothing
  | tostring =>
    rcases operands with _ | ⟨v, _ | ⟨_, _⟩⟩
    · exact hnothing
    · exact .ok _
    · exact hnothing
  | tonumber =>
    rcases operands with _ | ⟨v, _ | ⟨_, _⟩⟩
    · exact hnothing
    · exact hread v
    · exact hnothing

/-- Reading a member fails by the path to it only. -/
theorem raises_read (path : String) (v : Value) (accessors : List Accessor) :
    Raises Fault.IsReference (v.read path accessors) := by
  fun_induction Value.read path v accessors with
  | case1 => exact .ok _
  | case2 | case4 => assumption
  | case3 | case5 | case6 => exact Raises.error_iff.mpr rfl

/-- Assigning to a member fails by the path to it only. -/
theorem raises_assign (path : String) (new v : Value) (accessors : List Accessor) :
    Raises Fault.IsReference (Value.assign path new v accessors) := by
  fun_induction Value.assign path new v accessors with
  | case1 | case2 | case5 => exact .ok _
  | case3 | case6 => simpa
  | case4 | case7 | case8 => exact Raises.error_iff.mpr rfl

/-- Making a member fails by the path to it only. -/
theorem raises_materialize (path : String) (new v : Value) (accessors : List Accessor) :
    Raises Fault.IsReference (Value.materialize path new v accessors) := by
  fun_induction Value.materialize path new v accessors with
  | case1 => exact .ok _
  | case2 | case3 => simpa
  | case4 => exact Raises.error_iff.mpr rfl

/-- Replacing the names in a path fails by the path only. -/
theorem raises_expand (find? : String → Option Value) (path : String) :
    Raises Fault.IsReference (Path.expand find? path) := by
  have h depth name? cs :
      Raises Fault.IsReference (Path.expandFrom path find? depth name? cs) := by
    fun_induction Path.expandFrom path find? depth name? cs with
    | case1 => exact .ok _
    | case2 | case3 | case4 | case6 => exact Raises.error_iff.mpr rfl
    | case5 | case9 => simpa
    | case7 | case8 => assumption
  exact h _ _ _

/-- A value that is no index fails by the path only. -/
theorem raises_indexAccessor (path : String) (v : Value) :
    Raises Fault.IsReference (Path.indexAccessor path v) := by
  unfold Path.indexAccessor
  split
  · split
    · exact Raises.error_iff.mpr rfl
    · split
      · exact .ok _
      · exact Raises.error_iff.mpr rfl
  · split
    · exact .ok _
    · exact Raises.error_iff.mpr rfl

/-- The instructions of an expression are those of a tree. -/
theorem exists_polish_of_compile {expression : String} {instructions : List Instruction}
    (h : compile expression = .ok instructions) :
    ∃ t : Tree Instruction.consumed, t.polish = instructions := by
  obtain ⟨p, hsplit⟩ := exists_phrase_of_compile h
  rw [p.compile_eq hsplit] at h
  have hheight := Instruction.checkStack_eq_ok_iff.mp (p.checkStack_of_mapM h)
  exact (Tree.existsUnique_polish_eq hheight).exists

section Evaluate

variable {env : Environment} {o : Oracle}
  (hreference : ∀ fault : Fault, fault.IsReference → P fault)

include hreference

/-- A path raises faults of a kind if all faults of variables are of this kind and its indexes raise
no others. -/
theorem raises_resolve {find? : String → Option Value} {path : String}
    (h : ∀ text ∈ (Environment.names find?).indexes path, (o text).Raises P) :
    (Path.resolve find? o path).Raises P := by
  simp only [Environment.indexes] at h
  simp only [Path.resolve]
  cases hexpand : Path.expand find? path with
  | error fault => exact .throw (hreference _ (raises_expand find? path fault hexpand))
  | ok expanded =>
    rw [hexpand] at h
    rw [Eval.liftM_ok_bind]
    split
    · refine (Eval.Raises.mapM fun part hpart => ?_).bind fun _ => .pure _
      cases part with
      | field name => exact .pure _
      | index expression =>
        refine (h expression (List.mem_filterMap.mpr ⟨_, hpart, rfl⟩)).bind fun v => ?_
        exact .lift ((raises_indexAccessor path v).mono hreference)
      | flawed flaw => exact .throw (hreference _ rfl)
    · exact .throw (hreference _ rfl)

/-- Reading a path has the faults of its indexes and faults of references. -/
theorem Environment.raises_load {path : String} (h : ∀ text ∈ env.indexes path, (o text).Raises P) :
    (env.load o path).Raises P := by
  cases env with
  | constant => exact .throw (hreference _ rfl)
  | names find? =>
    refine (raises_resolve hreference h).bind fun resolved => ?_
    split
    · exact .lift ((raises_read _ _ _).mono hreference)
    · exact .throw (hreference _ rfl)

variable (hoperation : ∀ fault : Fault, fault.IsOperation → P fault)

include hoperation

/-- An instruction that has its operands has the faults of the expressions in it, and faults of
references and operations. -/
theorem Instruction.raises_result (i : Instruction) (operands : Fin i.consumed → Value)
    (h : ∀ text ∈ i.nested env, (o text).Raises P) :
    (i.result (env.load o) o operands).Raises P := by
  cases i with
  | number x => exact .pure _
  | text s => exact .pure _
  | load path => exact Environment.raises_load hreference h
  | array elements => exact (Eval.Raises.mapM h).bind fun _ => .pure _
  | object entries =>
    refine (Eval.Raises.foldlM (fun entry hentry fields => ?_) []).bind fun _ => .pure _
    exact (h entry.2 (List.mem_map_of_mem hentry)).bind fun _ => .pure _
  | unary op => exact .lift ((raises_unaryApply op _).mono hoperation)
  | binary op => exact .lift ((raises_binaryApply op _ _).mono hoperation)
  | call f => exact .lift ((raises_functionApply f _).mono hoperation)

/-- A tree of instructions has the faults of the expressions in it, and faults of references and
operations. -/
theorem Tree.raises_value {t : Tree Instruction.consumed}
    (h : ∀ i ∈ t.polish, ∀ text ∈ i.nested env, (o text).Raises P) :
    (t.value (env.load o) o).Raises P := by
  induction t with
  | node i operands ih =>
    rw [polish] at h
    refine (Eval.Raises.rightToLeft fun k => ih k fun j hj => ?_).bind fun values =>
      i.raises_result hreference hoperation values (h i List.mem_cons_self)
    refine h j (List.mem_cons_of_mem _ (List.mem_flatten.mpr ⟨_, ?_, hj⟩))
    exact List.mem_ofFn.mpr ⟨k, rfl⟩

/-- An expression has the faults of compiling it, of the expressions in it, and of references and
operations. In particular, no instruction lacks an operand. -/
theorem Environment.raises_step {expression : String} (hcompile : Raises P (compile expression))
    (h : ∀ text ∈ env.nested expression, (o text).Raises P) :
    (env.step o expression).Raises P := by
  unfold step
  cases hinstructions : compile expression with
  | error fault => exact .throw (hcompile fault hinstructions)
  | ok instructions =>
    obtain ⟨t, rfl⟩ := exists_polish_of_compile hinstructions
    rw [Eval.liftM_ok_bind, t.runAll_polish]
    refine t.raises_value hreference hoperation fun i hi text htext => h text ?_
    simp only [nested, hinstructions]
    exact List.mem_flatMap.mpr ⟨i, hi, htext⟩

end Evaluate

/-- Evaluating an expression has faults of expressions and of references only. -/
theorem raises_evaluate (effort : ℕ) (env : Environment) (expression : String) :
    (evaluate effort env expression).Raises Fault.IsEvaluation := by
  induction effort generalizing expression with
  | zero => exact .exhausted
  | succ effort ih =>
    refine Environment.raises_step (fun _ => .inr)
      (fun fault hfault => .inl (Fault.isExpression_iff.mpr (.inr hfault))) ?_ fun text _ => ih text
    exact (raises_compile expression).mono fun fault hfault =>
      .inl (Fault.isExpression_iff.mpr (.inl hfault))

/-! ## Variables and arguments -/

variable {store : Store} {effort : ℕ} {frame : FrameId}

/-- Setting a variable has faults of expressions and of references only. -/
theorem Store.raises_set (path : String) (v : Value) :
    (store.set effort frame path v).Raises Fault.IsEvaluation := by
  refine (raises_resolve (fun _ => .inr) fun text _ => raises_evaluate _ _ text).bind
    fun resolved => ?_
  split
  · exact .throw (.inr rfl)
  · split
    · exact .throw (.inr rfl)
    · exact (Eval.Raises.lift ((raises_assign _ _ _ _).mono fun _ => .inr)).bind fun _ => .pure _

/-- Making a variable has faults of expressions and of references only. -/
theorem Store.raises_create (path : String) (v : Value) :
    (store.create effort frame path v).Raises Fault.IsEvaluation := by
  refine (raises_resolve (fun _ => .inr) fun text _ => raises_evaluate _ _ text).bind
    fun resolved => ?_
  exact (Eval.Raises.lift ((raises_materialize _ _ _ _).mono fun _ => .inr)).bind fun _ => .pure _

/-- Checking arguments has faults of expressions, of references and of arguments only. -/
theorem raises_validate (command : String) (signature : Signature) (arguments : List Argument) :
    (validate effort store frame command signature arguments).Raises Fault.IsArgument := by
  have hevaluate text : (evaluate effort (store.environment frame) text).Raises Fault.IsArgument :=
    (raises_evaluate _ _ _).mono fun _ => .inl
  have haccept (d : Demand) text v : (liftM (d.accept text v) : Eval Actual).Raises
      Fault.IsArgument := by
    unfold Demand.accept
    split
    · exact .pure _
    · exact .throw (.inr rfl)
  have hargument (d : Demand) text :
      (evaluateArgument effort store frame d text).Raises Fault.IsArgument := by
    unfold evaluateArgument
    split
    · exact (hevaluate text).bind fun v => haccept d text v
    · exact .throw (.inr rfl)
  have htext (d : Demand) text : (checkText effort store frame d text).Raises Fault.IsArgument := by
    unfold checkText
    dsimp only
    split
    · exact .pure _
    · split
      · have hcompile : Raises Fault.IsArgument (compile text) :=
          (raises_compile text).mono fun _ h => .inl (.inl (Fault.isExpression_iff.mpr (.inl h)))
        exact (Eval.Raises.lift hcompile).bind fun _ => .pure _
      · split
        · split
          · exact .exhausted
          · exact haccept d text _
          · exact hargument d text
        · exact hargument d text
  have hcount : Raises Fault.IsArgument (signature.checkCount command arguments.length) := by
    unfold Signature.checkCount
    dsimp only
    split
    · exact .ok _
    · exact Raises.error_iff.mpr (.inr rfl)
  refine (Eval.Raises.lift hcount).bind fun _ => Eval.Raises.mapM ?_
  rintro ⟨argument, index⟩ _
  cases argument with
  | text s => exact htext _ s
  | block id body =>
    simp only [checkArgument]
    split
    · exact .pure _
    · exact .throw (.inr rfl)

end Logo
