import Logo.Expression.Apply
import Logo.Path.Access
import Logo.Proofs.Eval
import Logo.Proofs.Value.Fields
import Mathlib.Data.Nat.Notation

/-!
# Properties that values pass on

Reading a member, putting a member in and the operators and functions of expressions take members
from one value to another. What they make themselves are numbers, arrays, and objects in which
fields are put one after another. So they keep every property that values pass on to their members,
and that numbers and what is made of such members always have.
-/

namespace Logo

namespace Value

/-- Whether a property is passed on from a value to its members, and from members to what is made of
them. -/
structure Hereditary (Q : Value → Prop) : Prop where
  number (x : Float) : Q (number x)
  array {items : List Value} : Q (array items) ↔ ∀ v ∈ items, Q v
  empty : Q (object [])
  field {fields : List (String × Value)} : Q (object fields) → ∀ field ∈ fields, Q field.2
  putField {fields : List (String × Value)} {v : Value} : Q (object fields) → Q v →
    ∀ name, Q (object (putField fields name v))

namespace Hereditary

variable {Q : Value → Prop} (hQ : Hereditary Q)

include hQ

/-- Truth values are numbers, and have the property. -/
theorem ofBool (b : Bool) : Q (ofBool b) := hQ.number _

/-- Texts are arrays of numbers, and have the property. -/
theorem ofText (s : String) : Q (ofText s) := by
  rw [Value.ofText, hQ.array, List.forall_mem_map]
  exact fun c _ => hQ.number _

/-! ## Members -/

variable {path : String} {new v w : Value} {accessors : List Accessor}

/-- What is read on a path has the property. -/
theorem read (hv : Q v) (h : v.read path accessors = .ok w) : Q w := by
  fun_induction Value.read path v accessors with
  | case1 v =>
    cases h
    exact hv
  | case2 fields name rest member hlookup ih =>
    exact ih (of_lookup_eq_some (hQ.field hv) hlookup) h
  | case4 items i rest member hitem ih =>
    exact ih (hQ.array.mp hv _ (List.mem_of_getElem? hitem)) h
  | case3 | case5 | case6 => cases h

/-- A value with a member assigned has the property, if the new member has. -/
theorem assign (hnew : Q new) (hv : Q v) (h : Value.assign path new v accessors = .ok w) : Q w := by
  fun_induction Value.assign path new v accessors generalizing w with
  | case1 =>
    cases h
    exact hnew
  | case2 fields name rest hlast =>
    cases h
    exact hQ.putField hv hnew name
  | case3 fields name rest hlast member hlookup ih =>
    obtain ⟨member', hmember', rfl⟩ := map_eq_ok_iff.mp h
    exact hQ.putField hv (ih (of_lookup_eq_some (hQ.field hv) hlookup) hmember') name
  | case5 items i rest hlast =>
    cases h
    rw [hQ.array] at hv ⊢
    intro u hu
    rcases List.mem_append.mp hu with hmem | hmem
    · exact hv u hmem
    · rwa [List.mem_singleton.mp hmem]
  | case6 items i rest hlast member hitem ih =>
    obtain ⟨member', hmember', rfl⟩ := map_eq_ok_iff.mp h
    rw [hQ.array] at hv ⊢
    intro u hu
    rcases List.mem_or_eq_of_mem_set hu with hmem | rfl
    · exact hv u hmem
    · exact ih (hv _ (List.mem_of_getElem? hitem)) hmember'
  | case4 | case7 | case8 => cases h

/-- The fields of a value make up an object with the property. -/
theorem fieldsOrEmpty (hv : Q v) : Q (object v.fieldsOrEmpty) := by
  cases v with
  | object fields => exact hv
  | number | array | code => exact hQ.empty

/-- The items of a value have the property. -/
theorem itemsOrEmpty (hv : Q v) : ∀ item ∈ v.itemsOrEmpty, Q item := by
  cases v with
  | array items => exact hQ.array.mp hv
  | number | object | code => simp [Value.itemsOrEmpty]

/-- A value with a member materialized has the property, if the new member has. -/
theorem materialize (hnew : Q new) (hv : Q v)
    (h : Value.materialize path new v accessors = .ok w) : Q w := by
  fun_induction Value.materialize path new v accessors generalizing w with
  | case1 =>
    cases h
    exact hnew
  | case2 v name rest member =>
    rename_i ih
    obtain ⟨member', hmember', rfl⟩ := map_eq_ok_iff.mp h
    have hfields := hQ.fieldsOrEmpty hv
    refine hQ.putField hfields (ih ?_ hmember') name
    cases hlookup : v.fieldsOrEmpty.lookup name with
    | none =>
      simp only [member, hlookup, Option.getD_none]
      exact hQ.number _
    | some old =>
      simp only [member, hlookup, Option.getD_some]
      exact of_lookup_eq_some (hQ.field hfields) hlookup
  | case3 v i rest hbound items =>
    rename_i ih
    obtain ⟨member', hmember', rfl⟩ := map_eq_ok_iff.mp h
    have hitems : ∀ item ∈ items, Q item := by
      intro item hitem
      rcases List.mem_append.mp hitem with hmem | hmem
      · exact hQ.itemsOrEmpty hv item hmem
      · rw [List.eq_of_mem_replicate hmem]
        exact hQ.number _
    rw [hQ.array]
    intro u hu
    rcases List.mem_or_eq_of_mem_set hu with hmem | rfl
    · exact hitems u hmem
    · refine ih ?_ hmember'
      cases hitem : items[i]? with
      | none => exact hQ.number _
      | some old => exact hitems old (List.mem_of_getElem? hitem)
  | case4 => cases h

end Hereditary

end Value

/-! ## Operators and functions -/

open Value (Hereditary)

variable {Q : Value → Prop} (hQ : Hereditary Q) {v w a b : Value}

include hQ

/-- The result of a prefix operator has the property. -/
theorem UnaryOp.of_apply {op : UnaryOp} (h : op.apply v = .ok w) : Q w := by
  unfold apply at h
  split at h
  · cases h
    exact hQ.ofBool _
  · cases h
    exact hQ.number _
  · cases h
    exact hQ.number _
  · cases h

/-- A range of numbers has the property. -/
theorem of_rangeValue {first last : Float} (h : rangeValue first last = .ok w) : Q w := by
  unfold rangeValue at h
  dsimp only at h
  split at h
  · split at h
    · cases h
    · cases h
      rw [hQ.array, List.forall_mem_map]
      exact fun _ _ => hQ.number _
  · cases h

namespace BinaryOp

/-- The result of a binary operator on numbers has the property. -/
theorem of_applyNumbers {op : BinaryOp} {x y : Float} (h : op.applyNumbers x y = .ok w) : Q w := by
  cases op with
  | subtract | multiply | add =>
    cases h
    exact hQ.number _
  | less | greater | equal | and | or =>
    cases h
    exact hQ.ofBool _
  | divide | remainder =>
    simp only [applyNumbers] at h
    split at h
    · cases h
    · cases h
      exact hQ.number _
  | range => exact of_rangeValue hQ h

/-- Only the sum of two arrays has members, which are those of the arrays. -/
theorem of_apply {op : BinaryOp} (ha : Q a) (hb : Q b) (h : op.apply a b = .ok w) : Q w := by
  unfold apply at h
  split at h
  · cases h
    exact hQ.ofBool _
  · cases h
    exact hQ.ofBool _
  · cases h
    exact hQ.ofBool _
  · split at h
    · cases h
      exact hQ.number _
    · cases h
      rw [hQ.array] at ha hb ⊢
      exact fun u hu => (List.mem_append.mp hu).elim (ha u) (hb u)
    · cases h
  · split at h
    · exact of_applyNumbers hQ h
    · cases h

end BinaryOp

namespace Function

variable {f : Function}

/-- The result of a function of one number has the property. -/
theorem of_onNumber {g : Float → Float} (h : f.onNumber g v = .ok w) : Q w := by
  obtain ⟨x, _, h⟩ := bind_eq_ok_iff.mp h
  cases h
  exact hQ.number _

/-- The result of a function of two numbers has the property. -/
theorem of_onNumbers {g : Float → Float → Float} (h : f.onNumbers g a b = .ok w) : Q w := by
  obtain ⟨x, _, h⟩ := bind_eq_ok_iff.mp h
  obtain ⟨y, _, h⟩ := bind_eq_ok_iff.mp h
  cases h
  exact hQ.number _

/-- What lies between two values has the property. -/
theorem of_interpolateValue {t : Float} (h : interpolateValue a b t = .ok w) : Q w := by
  unfold interpolateValue at h
  dsimp only at h
  split at h
  · cases h
    exact hQ.number _
  · obtain ⟨xs, _, h⟩ := bind_eq_ok_iff.mp h
    obtain ⟨ys, _, h⟩ := bind_eq_ok_iff.mp h
    split at h
    · cases h
      rw [hQ.array, List.forall_mem_map]
      exact fun _ _ => hQ.number _
    · cases h

/-- A number that is read from a text has the property. -/
theorem of_readNumber (h : readNumber v = .ok w) : Q w := by
  unfold readNumber at h
  split at h
  · cases h
    exact hQ.number _
  · split at h
    · cases h
    · split at h
      · cases h
        exact hQ.number _
      · cases h

/-- A function gives numbers and texts only. -/
theorem of_apply {operands : List Value} (h : f.apply operands = .ok w) : Q w := by
  cases f with
  | abs | sqrt | round | floor | ceil | sin | cos | tan | sign =>
    rcases operands with _ | ⟨v, _ | ⟨_, _⟩⟩
    · cases h
    · exact of_onNumber hQ h
    · cases h
  | pow | min | max | atan2 =>
    rcases operands with _ | ⟨v, _ | ⟨_, _ | ⟨_, _⟩⟩⟩
    · cases h
    · cases h
    · exact of_onNumbers hQ h
    · cases h
  | vecsize =>
    rcases operands with _ | ⟨v, _ | ⟨_, _⟩⟩
    · cases h
    · obtain ⟨xs, _, h⟩ := bind_eq_ok_iff.mp h
      cases h
      exact hQ.number _
    · cases h
  | length =>
    rcases operands with _ | ⟨_ | _ | _ | _, _ | ⟨_, _⟩⟩
    all_goals cases h
    · exact hQ.number _
    · exact hQ.number _
  | interpolate =>
    rcases operands with _ | ⟨_, _ | ⟨_, _ | ⟨_, _ | ⟨_, _⟩⟩⟩⟩
    · cases h
    · cases h
    · cases h
    · obtain ⟨t, _, h⟩ := bind_eq_ok_iff.mp h
      exact of_interpolateValue hQ h
    · cases h
  | tostring =>
    rcases operands with _ | ⟨v, _ | ⟨_, _⟩⟩
    · cases h
    · cases h
      exact hQ.ofText _
    · cases h
  | tonumber =>
    rcases operands with _ | ⟨v, _ | ⟨_, _⟩⟩
    · cases h
    · exact of_readNumber hQ h
    · cases h
  | keys =>
    rcases operands with _ | ⟨_ | _ | _ | _, _ | ⟨_, _⟩⟩
    all_goals cases h
    rw [hQ.array, List.forall_mem_map]
    exact fun _ _ => hQ.ofText _

end Function

end Logo
