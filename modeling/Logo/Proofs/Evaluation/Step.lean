import Logo.Expression.Evaluate
import Logo.Proofs.Evaluation.Query
import Mathlib.Data.Nat.Notation

/-!
# Expressions inside expressions

The elements of a literal and the indexes of a path are expressions of their own. An evaluation asks
for the values of these, and for no others. With more effort, what is finished stays as it is.
-/

namespace Logo

/-- The expression of a part of a path that is an index. -/
def Path.Part.index? : Path.Part → Option String
  | index expression => some expression
  | _ => none

namespace Environment

/-- The index expressions of a path, once the names in it are replaced. -/
def indexes (env : Environment) (path : String) : List String :=
  match env with
  | constant => []
  | names find? =>
    match Path.expand find? path with
    | .error _ => []
    | .ok expanded =>
      let cs := Text.trim expanded
      let base := cs.takeWhile fun c => c != '.' && c != '['
      (Path.parts (cs.drop base.length)).filterMap Path.Part.index?

end Environment

/-- The expressions in an instruction. -/
def Instruction.nested (env : Environment) : Instruction → List String
  | array elements => elements
  | object entries => entries.map Prod.snd
  | load path => env.indexes path
  | _ => []

namespace Environment

/-- The expressions in an expression. -/
def nested (env : Environment) (expression : String) : List String :=
  match compile expression with
  | .error _ => []
  | .ok instructions => instructions.flatMap (Instruction.nested env)

/-- The value of an expression, given those of the expressions in it. -/
def step (env : Environment) (o : Oracle) (expression : String) : Eval Value := do
  let instructions ← compile expression
  Instruction.runAll expression (env.load o) o instructions

/-- With one more unit of effort, an expression takes one step whose nested expressions get the
rest. -/
theorem evaluate_succ (effort : ℕ) (env : Environment) :
    evaluate (effort + 1) env = env.step (evaluate effort env) := rfl

end Environment

/-! ## What evaluations ask for -/

variable {P : String → Prop}

/-- A part of a path asks about its own index at most. -/
theorem Path.Part.asks_resolve {path : String} {part : Path.Part}
    (h : ∀ expression ∈ part.index?, P expression) : Asks P fun o => part.resolve path o := by
  cases part with
  | field name => exact .const (Eval.pure_ne_exhausted _)
  | index expression =>
    exact (Asks.ask (h expression rfl)).bind fun v => .const (Eval.ofExcept_ne_exhausted _)
  | flawed flaw => exact .const (Eval.throw_ne_exhausted _)

/-- A path asks for its indexes. -/
theorem Path.asks_resolve {find? : String → Option Value} {path : String}
    (h : ∀ expression ∈ (Environment.names find?).indexes path, P expression) :
    Asks P fun o => Path.resolve find? o path := by
  simp only [Path.resolve]
  simp only [Environment.indexes] at h
  cases hexpand : Path.expand find? path with
  | error fault => exact .const (Eval.throw_ne_exhausted fault)
  | ok expanded =>
    rw [hexpand] at h
    simp only [Eval.liftM_ok_bind]
    split
    · refine Asks.bind (Asks.mapM fun part hpart => ?_) fun accessors =>
        .const (Eval.pure_ne_exhausted _)
      apply Path.Part.asks_resolve
      intro expression hexpression
      exact h expression (List.mem_filterMap.mpr ⟨part, hpart, hexpression⟩)
    · exact .const (Eval.throw_ne_exhausted _)

/-- Loading a variable by its path asks about the indexes of the path alone. -/
theorem Environment.asks_load {env : Environment} {path : String}
    (h : ∀ expression ∈ env.indexes path, P expression) : Asks P fun o => env.load o path := by
  cases env with
  | constant => exact .const (Eval.throw_ne_exhausted _)
  | names find? =>
    refine Asks.bind (Path.asks_resolve h) fun resolved => ?_
    split
    · exact .const (Eval.ofExcept_ne_exhausted _)
    · exact .const (Eval.throw_ne_exhausted _)

/-- An instruction asks for the expressions in it. -/
theorem Instruction.asks_run {env : Environment} {expression : String} {stack : List Value}
    {i : Instruction} (h : ∀ text ∈ i.nested env, P text) :
    Asks P fun o => i.run expression (env.load o) o stack := by
  cases i with
  | number x => exact .const (Eval.pure_ne_exhausted _)
  | text s => exact .const (Eval.pure_ne_exhausted _)
  | load path => exact (Environment.asks_load h).bind fun _ => .const (Eval.pure_ne_exhausted _)
  | array elements =>
    exact (Asks.mapM fun text htext => .ask (h text htext)).bind fun _ =>
      .const (Eval.pure_ne_exhausted _)
  | object entries =>
    refine Asks.bind (Asks.foldlM fun fields entry hentry => ?_) fun _ =>
      .const (Eval.pure_ne_exhausted _)
    exact (Asks.ask (h entry.2 (List.mem_map_of_mem hentry))).bind fun _ =>
      .const (Eval.pure_ne_exhausted _)
  | unary op =>
    simp only [run]
    split
    · exact .lift _ _
    · exact .const (Eval.throw_ne_exhausted _)
  | binary op =>
    simp only [run]
    split
    · exact .lift _ _
    · exact .const (Eval.throw_ne_exhausted _)
  | call f =>
    simp only [run]
    split
    · exact .lift _ _
    · exact .const (Eval.throw_ne_exhausted _)

/-- An expression asks for the expressions in it. -/
theorem Environment.asks_step (env : Environment) (expression : String) :
    Asks (· ∈ env.nested expression) fun o => env.step o expression := by
  cases hcompile : compile expression with
  | error fault =>
    simp only [step, hcompile]
    exact .const (Eval.throw_ne_exhausted fault)
  | ok instructions =>
    simp only [step, hcompile, Eval.liftM_ok_bind, Instruction.runAll]
    refine Asks.bind (Asks.foldlM fun stack i hi => Instruction.asks_run fun text htext => ?_)
      fun stack => ?_
    · simp only [nested, hcompile]
      exact List.mem_flatMap.mpr ⟨i, List.mem_reverse.mp hi, htext⟩
    · split
      · exact .const (Eval.pure_ne_exhausted _)
      · exact .const (Eval.throw_ne_exhausted _)
      · exact .const (Eval.throw_ne_exhausted _)

/-! ## Effort -/

/-- What an expression comes to with some effort, it comes to with more. -/
theorem evaluate_succ_extends (effort : ℕ) (env : Environment) :
    Oracle.Extends (evaluate (effort + 1) env) (evaluate effort env) := by
  induction effort with
  | zero =>
    intro text hknown
    exact absurd rfl hknown
  | succ effort ih =>
    intro text hknown
    exact (env.asks_step text).stable ih hknown

/-- With more effort, what is finished stays as it is. -/
theorem evaluate_extends {effort more : ℕ} (env : Environment) (h : effort ≤ more) :
    Oracle.Extends (evaluate more env) (evaluate effort env) := by
  induction h with
  | refl =>
    intro text _
    rfl
  | @step more _ ih =>
    intro text hknown
    have hmore := ih text hknown
    rw [evaluate_succ_extends more env text (hmore ▸ hknown), hmore]

end Logo
