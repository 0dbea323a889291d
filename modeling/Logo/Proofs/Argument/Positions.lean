import Logo.Proofs.Argument.Check
import Mathlib.Data.List.DropRight
import Mathlib.Data.Stream.Init

/-!
# The positions of a variadic signature

The positions at the back are given out first, from the last argument on. The arguments before them
take the positions at the front, and behind these all permit the same. With fewer arguments than
positions at the back, the first of these fall away.
-/

namespace Logo.Signature

open Stream'

variable {front back : List Categories} {between : Categories} {index total : ℕ}

/-- The categories permitted at an index, if none of the numbers on the way to them is negative and
no list is read behind its end. -/
def strictlyPermitted? (front back : List Categories) (between : Categories) (index total : ℕ) :
    Option Categories :=
  if total - back.length ≤ index then
    if index ≤ total ∧ total - index ≤ back.length then back[back.length - (total - index)]?
    else none
  else if index < front.length then front[index]?
  else some between

/-- Before the positions at the back, those at the front stand with endless others behind them. -/
theorem permitted_of_lt (bounds : ArgumentBounds) (h : index < total - back.length) :
    (variadic front back between bounds).permitted index total =
      (front ++ₛ const between).get index := by
  rw [permitted, if_neg (Nat.not_le.mpr h)]
  by_cases hfront : index < front.length
  · rw [get_append_left _ _ _ hfront, List.getElem?_eq_getElem hfront, Option.getD_some]
  · obtain ⟨n, rfl⟩ := Nat.exists_eq_add_of_le (Nat.not_lt.mp hfront)
    rw [get_append_right, get_const, List.getElem?_eq_none (Nat.le_add_right _ _), Option.getD_none]

/-- The positions at the back are counted from the last argument. -/
theorem getElem?_back (front : List Categories) (between : Categories) (bounds : ArgumentBounds)
    (hback : total - back.length ≤ index) (htotal : index < total) :
    back[back.length - (total - index)]? =
      some ((variadic front back between bounds).permitted index total) := by
  have hplace : back.length - (total - index) < back.length := by omega
  rw [permitted, if_pos hback, List.getElem?_eq_getElem hplace, Option.getD_some]

/-- In order, there are the positions at the front, as far as arguments are left for them, and the
last positions at the back. -/
theorem positions_eq (front back : List Categories) (between : Categories)
    (bounds : ArgumentBounds) (total : ℕ) :
    (variadic front back between bounds).positions total =
      (front ++ₛ const between).take (total - back.length) ++
        back.rtake (min back.length total) := by
  refine List.ext_getElem ?_ fun index hindex hindex' => ?_
  · simp only [positions, List.length_map, List.length_range, List.length_append, length_take,
      List.rtake, List.length_drop]
    omega
  · have htotal : index < total := by simpa [positions] using hindex
    rw [List.getElem_append]
    simp only [positions, List.getElem_map, List.getElem_range, length_take]
    split
    · next hfront => rw [take_get, permitted_of_lt bounds hfront]
    · next hback =>
      have hplace : back.length - min back.length total + (index - (total - back.length)) =
          back.length - (total - index) := by omega
      have hlookup := getElem?_back front between bounds (Nat.not_lt.mp hback) htotal
      simp only [List.rtake, List.getElem_drop, hplace]
      exact (Option.some.inj ((List.getElem?_eq_getElem _).symm.trans hlookup)).symm

/-- No number on the way to a position is negative, and no list is read behind its end. -/
theorem strictlyPermitted?_eq (bounds : ArgumentBounds) (htotal : index < total) :
    strictlyPermitted? front back between index total =
      some ((variadic front back between bounds).permitted index total) := by
  unfold strictlyPermitted?
  split
  · next hback =>
    have hinside : index ≤ total ∧ total - index ≤ back.length := by omega
    rw [if_pos hinside, getElem?_back front between bounds hback htotal]
  · next hfront =>
    rw [permitted, if_neg hfront]
    split
    · next h => rw [List.getElem?_eq_getElem h, Option.getD_some]
    · next h => rw [List.getElem?_eq_none (Nat.not_lt.mp h), Option.getD_none]

/-- Whatever the number of arguments, the positions are those at the front with endless others
behind them, so many as the positions at the back leave, and then the last ones at the back. All of
them are found without a negative number and without reading a list behind its end. -/
theorem positions_are_front_then_back (front back : List Categories) (between : Categories)
    (bounds : ArgumentBounds) (total : ℕ) :
    (variadic front back between bounds).positions total =
        (front ++ₛ const between).take (total - back.length) ++
          back.rtake (min back.length total) ∧
      ∀ index < total, strictlyPermitted? front back between index total =
        some ((variadic front back between bounds).permitted index total) :=
  ⟨positions_eq front back between bounds total, fun _ => strictlyPermitted?_eq bounds⟩

/-- With a word at the front and a number and code at the back, a single argument must be code,
though two are asked for; of five arguments, two stand between. -/
theorem positions_are_front_then_back_word_number_code :
    let word : Categories := { word := true }
    let number : Categories := { numeric := true }
    let code : Categories := { code := true }
    let signature := variadic [word] [number, code] .value ⟨2, none⟩
    1 < signature.bounds.least ∧ signature.positions 1 = [code] ∧
      signature.positions 5 = [word, .value, .value, number, code] ∧
      0 < 1 ∧ strictlyPermitted? [word] [number, code] .value 0 1 = some code := by
  intro word number code signature
  have hone := positions_are_front_then_back [word] [number, code] .value ⟨2, none⟩ 1
  have hfive := positions_are_front_then_back [word] [number, code] .value ⟨2, none⟩ 5
  exact ⟨by decide, hone.1, hfive.1, by decide, hone.2 0 (by decide)⟩

end Logo.Signature
