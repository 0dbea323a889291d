import Logo.Proofs.Evaluation.Codes
import Logo.Proofs.Interpreter.Ends

/-!
# The code that scripts run

The blocks that a control command runs are code of its arguments, and what it binds for them is a
number or an item of an argument. So a script runs only code that its arguments hold.
-/

namespace Logo

variable {C : Code → Prop} {arguments : List Actual}

/-- Whether a block and its bindings hold only code with a property. -/
def Held (C : Code → Prop) (code : Code) (bindings : Option Bindings) : Prop :=
  C code ∧ ∀ b ∈ bindings.getD [], b.2.AllCode C

/-- Code that is an argument has the property of all code in the argument. -/
theorem Actual.of_code? {a : Actual} {code : Code} (ha : a.toValue.AllCode C)
    (h : a.code? = some code) : C code := by
  rcases a with text | v
  · cases h
  · cases v with
    | code c =>
      cases h
      exact Value.allCode_code.mp ha
    | number | array | object => cases h

/-- Code at a position has the property of all code in the arguments. -/
theorem of_codeAt (harguments : ∀ a ∈ arguments, a.toValue.AllCode C) {index : ℕ} {code : Code}
    (h : Actual.codeAt arguments index = .ok code) : C code :=
  Value.allCode_code.mp (harguments _ (Command.mem_of_codeAt h))

/-- The parameters of a procedure are bound to its arguments. -/
theorem forall_bindParams {Q : Value → Prop} (harguments : ∀ a ∈ arguments, Q a.toValue)
    (params : List String) : ∀ b ∈ bindParams params arguments, Q b.2 := by
  have hfold (pairs : List (String × Actual)) (bindings : Bindings)
      (hpairs : ∀ p ∈ pairs, Q p.2.toValue) (hbindings : ∀ b ∈ bindings, Q b.2) :
      ∀ b ∈ pairs.foldl (fun b p => putField b p.1 p.2.toValue) bindings, Q b.2 := by
    induction pairs generalizing bindings with
    | nil => exact hbindings
    | cons pair rest ih =>
      rw [List.forall_mem_cons] at hpairs
      exact ih _ hpairs.2 (forall_putField hbindings hpairs.1)
  refine hfold _ [] (fun p hp => harguments p.2 (List.of_mem_zip hp).2) (by simp)

/-- A statement that is an expression comes to a value that is made of variables. -/
theorem Value.Hereditary.of_evaluateStatement {Q : Value → Prop} (hQ : Hereditary Q)
    {store : Store} {effort : ℕ} {frame : FrameId} {s : Statement} {v : Value}
    (hfind : ∀ name v, store.find? frame name = some v → Q v)
    (h : evaluateStatement effort store frame s = pure v) : Q v := by
  unfold evaluateStatement at h
  split at h
  · cases h
  · rcases htext : s.expression? with _ | text
    · rw [htext] at h
      cases h
    · rw [htext] at h
      exact hQ.of_evaluate hfind h

/-- A procedure is the code of a variable. -/
theorem Store.of_procedure? {s : Store} {frame : FrameId} {label : String} {code : Code}
    (hfind : ∀ name v, s.find? frame name = some v → v.AllCode C)
    (h : s.procedure? frame label = some code) : C code := by
  unfold procedure? at h
  split at h
  · obtain ⟨v, hv, hcode⟩ := Option.bind_eq_some_iff.mp h
    exact Actual.of_code? (a := .value v) (hfind label v hv) hcode
  · cases h

/-- The branches of an `if` hold code of its arguments. -/
theorem Branch.forall_of_readFrom {index : ℕ} {branches : List Branch}
    (harguments : ∀ a ∈ arguments, a.toValue.AllCode C)
    (h : readFrom index arguments = .ok branches) :
    ∀ branch ∈ branches, C branch.body ∧ ∀ a ∈ branch.condition, a.toValue.AllCode C := by
  fun_induction readFrom index arguments generalizing branches with
  | case1 =>
    cases h
    simp
  | case2 index condition body rest code hcode ih =>
    obtain ⟨others, hothers, rfl⟩ := map_eq_ok_iff.mp h
    simp only [List.forall_mem_cons] at harguments
    obtain ⟨_, hcondition, hbody, hrest⟩ := harguments
    refine List.forall_mem_cons.mpr ⟨⟨Actual.of_code? hbody hcode, ?_⟩, ih hrest hothers⟩
    simpa using hcondition
  | case4 index body code hcode =>
    cases h
    simp only [List.forall_mem_cons] at harguments
    simpa using Actual.of_code? harguments.2.1 hcode
  | case3 | case5 | case6 | case7 | case8 => cases h

/-- The branches that arguments stand for hold only code of these arguments. -/
theorem Branch.forall_of_read {branches : List Branch}
    (harguments : ∀ a ∈ arguments, a.toValue.AllCode C) (h : read arguments = .ok branches) :
    ∀ branch ∈ branches, C branch.body ∧ ∀ a ∈ branch.condition, a.toValue.AllCode C := by
  unfold read at h
  split at h
  · cases h
  · next condition rest =>
    split at h
    · cases h
    · next body hbody =>
      obtain ⟨others, hothers, rfl⟩ := map_eq_ok_iff.mp h
      have hbody' := of_codeAt harguments hbody
      rw [List.forall_mem_cons] at harguments
      have hrest a (ha : a ∈ rest.drop 1) := harguments.2 a (List.mem_of_mem_drop ha)
      refine List.forall_mem_cons.mpr ⟨⟨hbody', ?_⟩, forall_of_readFrom hrest hothers⟩
      simpa using harguments.1

/-- Reading branches does not fail with the fault of code that has outlived its frame. -/
theorem Branch.raises_read : Raises (· ≠ .expiredScope) (read arguments) := by
  have hfrom index arguments : Raises (· ≠ .expiredScope) (readFrom index arguments) := by
    fun_induction readFrom index arguments with
    | case1 | case4 => exact .ok _
    | case2 => simpa
    | case3 | case5 | case6 | case7 | case8 => simp
  unfold read
  split
  · simp
  · split
    · next f hf =>
      obtain ⟨flaw, rfl⟩ := Command.raises_codeAt _ _ f hf
      simp
    · exact Raises.map_iff.mpr (hfrom _ _)

/-- Code without bindings, or with a value that holds only such code. -/
theorem held_none {code : Code} (h : C code) : Held C code none := ⟨h, by simp⟩

/-- A block with one binding holds only code with a property, if its own code and the value do. -/
theorem held_single {code : Code} (h : C code) {name : String} {v : Value} (hv : v.AllCode C) :
    Held C code (some [(name, v)]) := ⟨h, by simpa using hv⟩

/-- The branches of an `if` run only code that they hold. -/
theorem Branch.script_admits {branches : List Branch} (effort : ℕ) (frame : FrameId)
    (h : ∀ branch ∈ branches, C branch.body ∧ ∀ a ∈ branch.condition, a.toValue.AllCode C) :
    (script effort frame branches).Admits (· ≠ .expiredScope) (Held C) := by
  induction branches with
  | nil => trivial
  | cons branch rest ih =>
    rw [List.forall_mem_cons] at h
    obtain ⟨⟨hbody, hcondition⟩, hrest⟩ := h
    have hgo (taken : Bool) : (if taken then .block .body branch.body none .finish
        else script effort frame rest : Script).Admits (· ≠ .expiredScope) (Held C) := by
      cases taken with
      | false => exact ih hrest
      | true => exact ⟨held_none hbody, fun _ => trivial⟩
    unfold script
    rcases hcase : branch.condition with _ | text | v
    · exact hgo true
    · exact ⟨fun store => (raises_evaluate _ _ _).mono fun _ hf => hf.ne_expiredScope,
        fun v => hgo v.truthy⟩
    · cases v with
      | code code =>
        have hcode := Value.allCode_code.mp (hcondition _ hcase)
        exact ⟨held_none hcode, fun flow => hgo flow.truthy⟩
      | number | array | object => exact hgo _

/-- A block of a loop, after which the loop ends if the block has left. -/
private theorem admits_loop {P : Fault → Prop} {B : Code → Option Bindings → Prop} {role : Role}
    {code : Code} {bindings : Option Bindings} {next : Flow → Script} (hblock : B code bindings)
    (h : ∀ flow, (next flow).Admits P B) :
    (Script.block role code bindings fun flow =>
      if flow.isLeave then .finish flow else next flow).Admits P B := by
  refine ⟨hblock, fun flow => ?_⟩
  cases flow with
  | next v => exact h (.next v)
  | leave v => trivial

/-- A `while` runs only its two blocks. -/
theorem whileScript_admits {condition body : Code} (hcondition : C condition) (hbody : C body)
    (rounds : ℕ) : (whileScript condition body rounds).Admits (· ≠ .expiredScope) (Held C) := by
  induction rounds with
  | zero => trivial
  | succ rounds ih =>
    refine admits_loop (held_none hcondition) fun flow => ?_
    split
    · exact admits_loop (held_none hbody) fun _ => ih
    · trivial

/-- A `repeat` runs only its block, with a number that holds no code. -/
theorem countScript_admits {body : Code} (hbody : C body) (limit : Float) (name : String)
    (rounds : ℕ) (counter : Float) :
    (countScript limit name body rounds counter).Admits (· ≠ .expiredScope) (Held C) := by
  induction rounds generalizing counter with
  | zero => trivial
  | succ rounds ih =>
    unfold countScript
    split
    · exact admits_loop (held_single hbody (Value.allCode_number _)) fun _ => ih _
    · trivial

/-- An `each` runs only its block, with one of its items. -/
theorem eachScript_admits {body : Code} (hbody : C body) (name : String) {items : List Value}
    (hitems : ∀ v ∈ items, v.AllCode C) :
    (eachScript name body items).Admits (· ≠ .expiredScope) (Held C) := by
  induction items with
  | nil => trivial
  | cons v rest ih =>
    rw [List.forall_mem_cons] at hitems
    exact admits_loop (held_single hbody hitems.1) fun _ => ih hitems.2

/-- The arguments behind the name of a loop variable are arguments. -/
theorem mem_of_mem_loopName {name : String} {a : Actual}
    (h : a ∈ (Command.loopName name arguments).2) : a ∈ arguments := by
  unfold Command.loopName at h
  split at h
  · exact List.mem_of_mem_drop h
  · exact h

/-- The items of an `each` have each property that values pass on, if its data has it. -/
theorem Value.Hereditary.of_eachItems {Q : Value → Prop} (hQ : Hereditary Q) {data : Option Actual}
    (hdata : ∀ a ∈ data, Q a.toValue) {items : List Value}
    (h : Command.eachItems data = .ok items) : ∀ v ∈ items, Q v := by
  unfold Command.eachItems at h
  split at h
  · cases h
    exact hQ.array.mp (hdata _ rfl)
  · cases h
    rw [List.forall_mem_map]
    exact fun _ _ => hQ.ofText _
  · cases h
  · cases h

/-- What `each` runs over holds code of its argument. -/
theorem forall_of_eachItems {data : Option Actual} (hdata : ∀ a ∈ data, a.toValue.AllCode C) :
    Raises (· ≠ .expiredScope) (Command.eachItems data) ∧
      ∀ items, Command.eachItems data = .ok items → ∀ v ∈ items, v.AllCode C := by
  refine ⟨?_, fun items h => (Value.hereditary_allCode C).of_eachItems hdata h⟩
  unfold Command.eachItems
  split
  · exact .ok _
  · exact .ok _
  · simp
  · simp

/-- A control command runs code of its arguments, with code of its arguments in the bindings. -/
theorem Control.script_admits (c : Control) (effort : ℕ) (settings : Settings) (frame : FrameId)
    (harguments : ∀ a ∈ arguments, a.toValue.AllCode C) :
    (c.script effort settings frame arguments).Admits (· ≠ .expiredScope) (Held C) := by
  have hcodeAt {index : ℕ} {f : Fault} (h : Actual.codeAt arguments index = .error f) :
      f ≠ .expiredScope := by
    obtain ⟨flaw, rfl⟩ := Command.raises_codeAt _ _ f h
    simp
  cases c with
  | ifElse =>
    simp only [script]
    split
    · next f hf => exact Branch.raises_read f hf
    · next branches hbranches =>
      exact Branch.script_admits effort frame (Branch.forall_of_read harguments hbranches)
  | whileTrue =>
    simp only [script]
    rcases hcondition : Actual.codeAt arguments 0 with f | condition
    · exact hcodeAt hcondition
    · rcases hbody : Actual.codeAt arguments 1 with f | body
      · exact hcodeAt hbody
      · exact whileScript_admits (of_codeAt harguments hcondition) (of_codeAt harguments hbody)
          effort
  | repeatTimes =>
    simp only [script]
    split
    · next f hf => exact hcodeAt hf
    · next body hbody => exact countScript_admits (of_codeAt harguments hbody) _ _ _ _
  | eachItem =>
    simp only [script]
    split
    · next f hf => exact hcodeAt hf
    · next body hbody =>
      have hdata a (ha : a ∈ (Command.loopName settings.eachVariable arguments).2.head?) :
          a.toValue.AllCode C := harguments a (mem_of_mem_loopName (List.mem_of_mem_head? ha))
      obtain ⟨hraises, hitems⟩ := forall_of_eachItems hdata
      split
      · next f hf => exact hraises f hf
      · next items h => exact eachScript_admits (of_codeAt harguments hbody) _ (hitems items h)

end Logo
