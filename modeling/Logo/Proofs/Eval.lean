import Logo.Fault
import Mathlib.Data.List.Forall2
import Mathlib.Logic.Basic

/-!
# Outcomes of evaluations

An evaluation is finished with a value, finished with a fault, or exhausted. A sequence of two
evaluations has a value exactly when both have one. The same is true of computations that only have
a value or a fault.
-/

namespace Logo

variable {α β γ ε : Type}

/-- A sequence is successful only if its first part is, and the second part goes on from there. -/
theorem bind_eq_ok_iff {e : Except ε α} {f : α → Except ε β} {b : β} :
    e >>= f = .ok b ↔ ∃ a, e = .ok a ∧ f a = .ok b := by
  constructor
  · intro h
    cases e with
    | error fault => cases h
    | ok a => exact ⟨a, rfl, h⟩
  · rintro ⟨a, rfl, h⟩
    exact h

/-- A mapped result is a success exactly if the result is one. -/
theorem map_eq_ok_iff {e : Except ε α} {f : α → β} {b : β} :
    e.map f = .ok b ↔ ∃ a, e = .ok a ∧ f a = b := by
  cases e <;> simp [Except.map]

/-- A list is mapped successfully if each of its members is. -/
theorem exists_mapM_eq_ok {f : α → Except ε β} {as : List α} (h : ∀ a ∈ as, ∃ b, f a = .ok b) :
    ∃ bs, as.mapM f = .ok bs := by
  induction as with
  | nil => exact ⟨[], rfl⟩
  | cons a as ih =>
    obtain ⟨b, hb⟩ := h a List.mem_cons_self
    obtain ⟨bs, hbs⟩ := ih fun a ha => h a (List.mem_cons_of_mem _ ha)
    refine ⟨b :: bs, ?_⟩
    rw [List.mapM_cons, hb, hbs]
    rfl

/-- A list is mapped alike by what maps each member alike. -/
theorem mapM_eq_ok_of_imp {f g : α → Except ε β} (hfg : ∀ a b, f a = .ok b → g a = .ok b)
    {as : List α} {bs : List β} (h : as.mapM f = .ok bs) : as.mapM g = .ok bs := by
  induction as generalizing bs with
  | nil => exact h
  | cons a as ih =>
    rw [List.mapM_cons] at h ⊢
    obtain ⟨b, hb, h⟩ := bind_eq_ok_iff.mp h
    obtain ⟨bs, hbs, h⟩ := bind_eq_ok_iff.mp h
    exact bind_eq_ok_iff.mpr ⟨b, hfg a b hb, bind_eq_ok_iff.mpr ⟨bs, ih hbs, h⟩⟩

/-- What the members of a list share with their images, the list shares with its image. -/
theorem map_eq_map_of_mapM_eq_ok {f : α → Except ε β} {g : α → γ} {g' : β → γ}
    (hf : ∀ a b, f a = .ok b → g' b = g a) {as : List α} {bs : List β} (h : as.mapM f = .ok bs) :
    bs.map g' = as.map g := by
  induction as generalizing bs with
  | nil =>
    cases h
    rfl
  | cons a as ih =>
    rw [List.mapM_cons] at h
    obtain ⟨b, hb, h⟩ := bind_eq_ok_iff.mp h
    obtain ⟨bs, hbs, h⟩ := bind_eq_ok_iff.mp h
    cases h
    rw [List.map_cons, List.map_cons, hf a b hb, ih hbs]

/-- What stands in the image of a list is the image of a member. -/
theorem exists_of_mem_of_mapM_eq_ok {f : α → Except ε β} {as : List α} {bs : List β}
    (h : as.mapM f = .ok bs) {b : β} (hb : b ∈ bs) : ∃ a ∈ as, f a = .ok b := by
  induction as generalizing bs with
  | nil =>
    cases h
    simp at hb
  | cons a as ih =>
    rw [List.mapM_cons] at h
    obtain ⟨b', hb', h⟩ := bind_eq_ok_iff.mp h
    obtain ⟨bs, hbs, h⟩ := bind_eq_ok_iff.mp h
    cases h
    rcases List.mem_cons.mp hb with rfl | hmem
    · exact ⟨a, List.mem_cons_self, hb'⟩
    · obtain ⟨a', ha', hfa'⟩ := ih hbs hmem
      exact ⟨a', List.mem_cons_of_mem _ ha', hfa'⟩

/-- Each member of a list that is mapped has its image in the result. -/
theorem exists_mem_of_mapM_eq_ok {f : α → Except ε β} {as : List α} {bs : List β}
    (h : as.mapM f = .ok bs) {a : α} (ha : a ∈ as) : ∃ b ∈ bs, f a = .ok b := by
  induction as generalizing bs with
  | nil => simp at ha
  | cons a' as ih =>
    rw [List.mapM_cons] at h
    obtain ⟨b, hb, h⟩ := bind_eq_ok_iff.mp h
    obtain ⟨bs, hbs, h⟩ := bind_eq_ok_iff.mp h
    cases h
    rcases List.mem_cons.mp ha with rfl | hmem
    · exact ⟨b, List.mem_cons_self, hb⟩
    · obtain ⟨b', hb', hfa⟩ := ih hbs hmem
      exact ⟨b', List.mem_cons_of_mem _ hb', hfa⟩

namespace Eval

/-- Finished evaluations are told apart by their values. -/
@[simp] theorem pure_inj {a b : α} : (pure a : Eval α) = pure b ↔ a = b := by
  constructor
  · intro h
    exact Except.ok.inj (Option.some.inj h)
  · rintro rfl
    rfl

/-- A sequence has a value only if its first part has one, from which the second part goes on. -/
theorem bind_eq_pure_iff {e : Eval α} {f : α → Eval β} {b : β} :
    e >>= f = pure b ↔ ∃ a, e = pure a ∧ f a = pure b := by
  constructor
  · intro h
    rcases e with _ | _ | a
    · cases h
    · cases h
    · exact ⟨a, rfl, h⟩
  · rintro ⟨a, rfl, h⟩
    exact h

/-- A lifted computation has a value if it is successful. -/
theorem liftM_eq_pure_iff {e : Except Fault α} {a : α} :
    (liftM e : Eval α) = pure a ↔ e = .ok a := by
  constructor
  · intro h
    exact Option.some.inj h
  · rintro rfl
    rfl

/-- Each member of a list that is mapped has an image. -/
theorem exists_of_mem_of_mapM_eq_pure {f : α → Eval β} {as : List α} {bs : List β}
    (h : as.mapM f = pure bs) {a : α} (ha : a ∈ as) : ∃ b, f a = pure b := by
  induction as generalizing bs with
  | nil => simp at ha
  | cons a' as ih =>
    rw [List.mapM_cons] at h
    obtain ⟨b, hb, h⟩ := bind_eq_pure_iff.mp h
    obtain ⟨bs, hbs, _⟩ := bind_eq_pure_iff.mp h
    rcases List.mem_cons.mp ha with rfl | hmem
    · exact ⟨b, hb⟩
    · exact ih hbs hmem

/-- The members of a list and of its image belong together one by one. -/
theorem forall₂_of_mapM_eq_pure {f : α → Eval β} {as : List α} {bs : List β}
    (h : as.mapM f = pure bs) : List.Forall₂ (fun a b => f a = pure b) as bs := by
  induction as generalizing bs with
  | nil =>
    rw [List.mapM_nil, pure_inj] at h
    subst h
    exact .nil
  | cons a as ih =>
    rw [List.mapM_cons] at h
    obtain ⟨b, hb, h⟩ := bind_eq_pure_iff.mp h
    obtain ⟨bs, hbs, h⟩ := bind_eq_pure_iff.mp h
    rw [pure_inj] at h
    subst h
    exact .cons hb (ih hbs)

/-- What is true of the images of all members of a list is true of the members of its image. -/
theorem forall_mem_of_mapM_eq_pure {f : α → Eval β} {Q : β → Prop} {as : List α} {bs : List β}
    (hf : ∀ a ∈ as, ∀ b, f a = pure b → Q b) (h : as.mapM f = pure bs) : ∀ b ∈ bs, Q b := by
  induction as generalizing bs with
  | nil =>
    rw [List.mapM_nil, pure_inj] at h
    subst h
    simp
  | cons a as ih =>
    rw [List.mapM_cons] at h
    obtain ⟨b, hb, h⟩ := bind_eq_pure_iff.mp h
    obtain ⟨bs, hbs, h⟩ := bind_eq_pure_iff.mp h
    rw [pure_inj] at h
    subst h
    rw [List.forall_mem_cons] at hf
    exact List.forall_mem_cons.mpr ⟨hf.1 b hb, ih hf.2 hbs⟩

/-- What each step keeps is kept by all steps together. -/
theorem of_foldlM_eq_pure {f : β → α → Eval β} {Q : β → Prop} {as : List α} {b b' : β}
    (hf : ∀ b a b', Q b → f b a = pure b' → Q b') (hb : Q b) (h : as.foldlM f b = pure b') :
    Q b' := by
  induction as generalizing b with
  | nil =>
    rw [List.foldlM_nil, pure_inj] at h
    rwa [← h]
  | cons a as ih =>
    rw [List.foldlM_cons] at h
    obtain ⟨b₁, hb₁, h⟩ := bind_eq_pure_iff.mp h
    exact ih (hf b a b₁ hb hb₁) h

/-- Each member of a list that is folded makes a step that has a value. -/
theorem exists_of_mem_of_foldlM_eq_pure {f : β → α → Eval β} {as : List α} {b b' : β}
    (h : as.foldlM f b = pure b') {a : α} (ha : a ∈ as) : ∃ b₀ b₁, f b₀ a = pure b₁ := by
  induction as generalizing b with
  | nil => simp at ha
  | cons a' as ih =>
    rw [List.foldlM_cons] at h
    obtain ⟨b₁, hb₁, h⟩ := bind_eq_pure_iff.mp h
    rcases List.mem_cons.mp ha with rfl | hmem
    · exact ⟨b, b₁, hb₁⟩
    · exact ih h hmem

end Eval

end Logo
