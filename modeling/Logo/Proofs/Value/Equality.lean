import Logo.Proofs.Interpreter.Passing
import Logo.Proofs.Number.Parts
import Logo.Proofs.Path.Lens
import Mathlib.Logic.Relation

/-!
# Laws of equality

Two values are equal if they are of the same kind, with equal numbers or the same code, and equal
members at every accessor. For objects this is not how equality is tested: every field of the first
object is looked for in the second, and the objects must be of the same size. It comes to the same
where no object has two fields of the same name. So equality is symmetric and transitive, it does
not depend on the order of fields, and only a NaN, which is not equal to itself, keeps a value from
being equal to itself.
-/

namespace Logo

/-! ## Fields in any order -/

section Fields

variable {α : Type} {fields fields' : List (String × α)}

/-- Where all names differ, each field is found by its name. -/
theorem lookup_eq_some_iff_mem (h : (fields.map Prod.fst).Nodup) {name : String} {v : α} :
    fields.lookup name = some v ↔ (name, v) ∈ fields := by
  constructor
  · intro hlookup
    obtain ⟨before, after, rfl, _⟩ := List.lookup_eq_some_iff.mp hlookup
    simp
  · intro hmem
    obtain ⟨before, after, rfl⟩ := List.append_of_mem hmem
    refine List.lookup_eq_some_iff.mpr ⟨before, after, rfl, fun field hfield => ?_⟩
    rw [List.map_append, List.map_cons] at h
    have hne : field.1 ≠ name := (List.nodup_append.mp h).2.2 field.1
      (List.mem_map_of_mem hfield) name List.mem_cons_self
    simpa using hne.symm

/-- Where all names differ, their order makes no difference. -/
theorem lookup_eq_of_perm (h : (fields.map Prod.fst).Nodup) (hperm : fields.Perm fields')
    (name : String) : fields.lookup name = fields'.lookup name := by
  have h' : (fields'.map Prod.fst).Nodup := (hperm.map Prod.fst).nodup_iff.mp h
  refine Option.ext fun v => ?_
  rw [lookup_eq_some_iff_mem h, lookup_eq_some_iff_mem h', hperm.mem_iff]

end Fields

/-! ## Related options -/

section Options

variable {α : Type} {R S : α → α → Prop} {a b c : Option α}

/-- Of two related options both are there or neither is. -/
theorem isSome_eq_of_rel (h : Option.Rel R a b) : a.isSome = b.isSome := by
  cases h with
  | none => rfl
  | some => rfl

/-- Related options are related the other way round, as far as their values are. -/
theorem rel_symm_of (h : Option.Rel R a b)
    (hRS : ∀ v w, a = some v → b = some w → R v w → S w v) : Option.Rel S b a := by
  cases h with
  | none => exact .none
  | some h => exact .some (hRS _ _ rfl rfl h)

/-- Options that are related through a third one are related, as far as their values are. -/
theorem rel_trans_of {T : α → α → Prop} (h : Option.Rel R a b) (h' : Option.Rel S b c)
    (hT : ∀ u v w, a = some u → b = some v → c = some w → R u v → S v w → T u w) :
    Option.Rel T a c := by
  cases h with
  | none =>
    cases h' with
    | none => exact .none
  | some h =>
    cases h' with
    | some h' => exact .some (hT _ _ _ rfl rfl rfl h h')

end Options

namespace Value

/-! ## Equal members -/

/-- Whether two values are equal. -/
def Same (v w : Value) : Prop := v.same w = true

/-- Whether two values are equal apart from their members. -/
inductive SameLeaf : Value → Value → Prop
  | number {x y : Float} (h : (x == y) = true) : SameLeaf (number x) (number y)
  | code {c d : Code} (h : c.same d = true) : SameLeaf (code c) (code d)
  | array (xs ys : List Value) : SameLeaf (array xs) (array ys)
  | object (fs gs : List (String × Value)) : SameLeaf (object fs) (object gs)

/-- Items are equal exactly if they are so at each index, with none left over on either side. -/
theorem sameItems_iff {xs ys : List Value} :
    sameItems xs ys = true ↔ ∀ i : ℕ, Option.Rel Same xs[i]? ys[i]? := by
  induction xs generalizing ys with
  | nil =>
    cases ys with
    | nil => simp [sameItems]
    | cons y ys => simpa [sameItems] using ⟨0, by simp⟩
  | cons x xs ih =>
    cases ys with
    | nil => simpa [sameItems] using ⟨0, by simp⟩
    | cons y ys =>
      rw [sameItems, Bool.and_eq_true, ih]
      refine Iff.trans ?_ Nat.and_forall_add_one
      simp [Same]

/-- Fields are equal exactly if each of the first has a field of its name and an equal value among
the second. -/
theorem sameFields_iff {fs gs : List (String × Value)} :
    sameFields fs gs = true ↔ ∀ f ∈ fs, ∃ w, gs.lookup f.1 = some w ∧ f.2.Same w := by
  induction fs with
  | nil => simp [sameFields]
  | cons f fs ih =>
    obtain ⟨name, v⟩ := f
    rw [sameFields, Bool.and_eq_true, ih, List.forall_mem_cons]
    refine and_congr_left fun _ => ?_
    cases gs.lookup name with
    | none => simp
    | some w => simp [Same]

variable {fs gs : List (String × Value)}

/-- Where the names of each object differ, looking for the fields of one object in the other and
comparing the sizes is enough. -/
theorem same_object_iff (hf : (fs.map Prod.fst).Nodup) (hg : (gs.map Prod.fst).Nodup) :
    (object fs).same (object gs) = true ↔
      ∀ name, Option.Rel Same (fs.lookup name) (gs.lookup name) := by
  rw [same, Bool.and_eq_true, decide_eq_true_eq, sameFields_iff]
  constructor
  · rintro ⟨hlength, hfields⟩ name
    have hsubset : fs.map Prod.fst ⊆ gs.map Prod.fst := by
      intro name hname
      obtain ⟨f, hf, rfl⟩ := List.mem_map.mp hname
      obtain ⟨w, hw, _⟩ := hfields f hf
      exact lookup_isSome_iff.mp (by rw [hw]; rfl)
    -- As many names as there are in the second object leave none of its names over.
    have hperm : (fs.map Prod.fst).Perm (gs.map Prod.fst) :=
      (List.subperm_of_subset hf hsubset).perm_of_length_le (by simp [hlength])
    cases hv : fs.lookup name with
    | some v =>
      obtain ⟨w, hw, hsame⟩ := hfields _ ((lookup_eq_some_iff_mem hf).mp hv)
      rw [hw]
      exact .some hsame
    | none =>
      have hmem : name ∉ gs.map Prod.fst := by
        rw [← hperm.mem_iff, ← lookup_isSome_iff, hv]
        simp
      rw [← lookup_isSome_iff, Option.not_isSome_iff_eq_none] at hmem
      rw [hmem]
      exact .none
  · intro h
    have hperm : (fs.map Prod.fst).Perm (gs.map Prod.fst) := by
      refine (List.perm_ext_iff_of_nodup hf hg).mpr fun name => ?_
      rw [← lookup_isSome_iff, ← lookup_isSome_iff, isSome_eq_of_rel (h name)]
    refine ⟨by simpa using hperm.length_eq, fun f hmem => ?_⟩
    have hrel := h f.1
    rw [(lookup_eq_some_iff_mem hf).mpr hmem] at hrel
    generalize gs.lookup f.1 = found at hrel
    cases hrel with
    | some hsame => exact ⟨_, rfl, hsame⟩

variable {a b c v w : Value} {x : Accessor}

/-- Equal values are of the same kind. -/
theorem Same.kind_eq (h : a.Same b) : a.kind = b.kind := by
  cases a with
  | number =>
    cases b with
    | number => rfl
    | array | object | code => cases h
  | array =>
    cases b with
    | array => rfl
    | number | object | code => cases h
  | object =>
    cases b with
    | object => rfl
    | number | array | code => cases h
  | code =>
    cases b with
    | code => rfl
    | number | array | object => cases h

/-- Values are equal if they are so apart from their members, and have equal members at every
accessor. -/
theorem same_iff_members (ha : a.Tidy) (hb : b.Tidy) :
    a.Same b ↔ a.SameLeaf b ∧ ∀ x, Option.Rel Same (a.member? x) (b.member? x) := by
  constructor
  · intro h
    cases ha with
    | number x =>
      cases hb with
      | number y => exact ⟨.number h, fun _ => .none⟩
      | code | array | object => cases h.kind_eq
    | code c =>
      cases hb with
      | code d => exact ⟨.code h, fun _ => .none⟩
      | number | array | object => cases h.kind_eq
    | array =>
      cases hb with
      | array =>
        refine ⟨.array _ _, fun x => ?_⟩
        cases x with
        | field name => exact .none
        | index i => exact sameItems_iff.mp h i
      | number | code | object => cases h.kind_eq
    | object hnames =>
      cases hb with
      | object hnames' =>
        refine ⟨.object _ _, fun x => ?_⟩
        cases x with
        | field name => exact (same_object_iff hnames hnames').mp h name
        | index i => exact .none
      | number | code | array => cases h.kind_eq
  · rintro ⟨hleaf, hmembers⟩
    cases hleaf with
    | number h => exact h
    | code h => exact h
    | array => exact sameItems_iff.mpr fun i => hmembers (.index i)
    | object =>
      rcases ha with _ | _ | _ | ⟨hnames, _⟩
      rcases hb with _ | _ | _ | ⟨hnames', _⟩
      exact (same_object_iff hnames hnames').mpr fun name => hmembers (.field name)

/-! ## Partial equivalence -/

/-- The members of a value without double fields have no double fields. -/
theorem Tidy.of_member? (h : a.Tidy) (hv : a.member? x = some v) : v.Tidy := by
  cases h with
  | number | code => cases hv
  | array hitems =>
    cases x with
    | field name => cases hv
    | index i => exact hitems v (List.mem_of_getElem? hv)
  | object hnames hfields =>
    cases x with
    | field name => exact of_lookup_eq_some hfields hv
    | index i => cases hv

/-- What is true of a value if it is true of its members is true of every value. -/
theorem Tidy.member_induction {P : Value → Prop}
    (step : ∀ a : Value, a.Tidy → (∀ x v, a.member? x = some v → P v) → P a) (h : a.Tidy) :
    P a := by
  induction h with
  | number x => exact step _ (.number x) fun _ _ hv => by cases hv
  | code c => exact step _ (.code c) fun _ _ hv => by cases hv
  | array hitems ih =>
    refine step _ (.array hitems) fun x v hv => ?_
    cases x with
    | field name => cases hv
    | index i => exact ih v (List.mem_of_getElem? hv)
  | object hnames hfields ih =>
    refine step _ (.object hnames hfields) fun x v hv => ?_
    cases x with
    | field name => exact of_lookup_eq_some ih hv
    | index i => cases hv

end Value

/-- Pieces of code are equal exactly if they are the same block, with the same frame and the same
parameters. -/
theorem Code.same_iff {c d : Code} :
    c.same d = true ↔ c.block = d.block ∧ c.frame = d.frame ∧ c.params = d.params := by
  simp [same, and_assoc]

namespace Value

variable {a b c v w : Value} {x : Accessor}

/-- Equality apart from members is symmetric. -/
theorem SameLeaf.symm (h : a.SameLeaf b) : b.SameLeaf a := by
  cases h with
  | number h => exact .number (BEq.symm h)
  | code h =>
    rw [Code.same_iff] at h
    exact .code (Code.same_iff.mpr ⟨h.1.symm, h.2.1.symm, h.2.2.symm⟩)
  | array => exact .array _ _
  | object => exact .object _ _

/-- Equality apart from members is transitive. -/
theorem SameLeaf.trans (h : a.SameLeaf b) (h' : b.SameLeaf c) : a.SameLeaf c := by
  cases h with
  | number h =>
    cases h' with
    | number h' => exact .number (BEq.trans h h')
  | code h =>
    cases h' with
    | code h' =>
      rw [Code.same_iff] at h h'
      exact .code (Code.same_iff.mpr ⟨h.1.trans h'.1, h.2.1.trans h'.2.1, h.2.2.trans h'.2.2⟩)
  | array =>
    cases h' with
    | array => exact .array _ _
  | object =>
    cases h' with
    | object => exact .object _ _

/-- Equality is symmetric for values without double fields. -/
theorem Same.symm (ha : a.Tidy) (hb : b.Tidy) (h : a.Same b) : b.Same a := by
  refine ha.member_induction (P := fun a => ∀ b : Value, b.Tidy → a.Same b → b.Same a)
    (fun a ha ih b hb h => ?_) b hb h
  obtain ⟨hleaf, hmembers⟩ := (same_iff_members ha hb).mp h
  refine (same_iff_members hb ha).mpr ⟨hleaf.symm, fun x => ?_⟩
  exact rel_symm_of (hmembers x) fun v w hv hw => ih x v hv w (hb.of_member? hw)

/-- Equality is transitive for values without double fields. -/
theorem Same.trans (ha : a.Tidy) (hb : b.Tidy) (hc : c.Tidy) (h : a.Same b) (h' : b.Same c) :
    a.Same c := by
  refine ha.member_induction
    (P := fun a => ∀ b c : Value, b.Tidy → c.Tidy → a.Same b → b.Same c → a.Same c)
    (fun a ha ih b c hb hc h h' => ?_) b c hb hc h h'
  obtain ⟨hleaf, hmembers⟩ := (same_iff_members ha hb).mp h
  obtain ⟨hleaf', hmembers'⟩ := (same_iff_members hb hc).mp h'
  refine (same_iff_members ha hc).mpr ⟨hleaf.trans hleaf', fun x => ?_⟩
  exact rel_trans_of (hmembers x) (hmembers' x) fun u v w hu hv hw =>
    ih x u hu v w (hb.of_member? hv) (hc.of_member? hw)

/-- The two sides of a comparison can be exchanged. -/
theorem same_comm (ha : a.Tidy) (hb : b.Tidy) : a.same b = b.same a :=
  Bool.eq_iff_iff.mpr ⟨Same.symm ha hb, Same.symm hb ha⟩

/-! ## Values that are equal to themselves -/

/-- Whether there is a NaN in a value, at any depth. -/
inductive HasNaN : Value → Prop
  | number {x : Float} (h : x.isNaN = true) : HasNaN (number x)
  | item {items : List Value} {v : Value} (hv : v ∈ items) (h : HasNaN v) : HasNaN (array items)
  | field {fields : List (String × Value)} {field : String × Value} (hfield : field ∈ fields)
      (h : HasNaN field.2) : HasNaN (object fields)

/-- Only a number can differ from itself apart from its members. -/
theorem sameLeaf_self_iff : a.SameLeaf a ↔ ¬∃ x : Float, a = .number x ∧ x.isNaN = true := by
  cases a with
  | number x =>
    have hself := Number.beq_self_iff x
    constructor
    · rintro hleaf ⟨_, heq, hnan⟩
      cases heq
      cases hleaf with
      | number h => exact hself.mp h hnan
    · intro h
      exact .number (hself.mpr fun hnan => h ⟨x, rfl, hnan⟩)
  | code c => exact iff_of_true (.code (Code.same_iff.mpr ⟨rfl, rfl, rfl⟩)) (by simp)
  | array => exact iff_of_true (.array _ _) (by simp)
  | object => exact iff_of_true (.object _ _) (by simp)

/-- There is a NaN in a value exactly if it is one or there is one in a member. -/
theorem hasNaN_iff (ha : a.Tidy) :
    a.HasNaN ↔ (∃ x : Float, a = .number x ∧ x.isNaN = true) ∨
      ∃ x v, a.member? x = some v ∧ v.HasNaN := by
  constructor
  · intro h
    cases h with
    | number h => exact .inl ⟨_, rfl, h⟩
    | item hv h =>
      obtain ⟨i, hi⟩ := List.mem_iff_getElem?.mp hv
      exact .inr ⟨.index i, _, hi, h⟩
    | field hfield h =>
      rcases ha with _ | _ | _ | ⟨hnames, _⟩
      exact .inr ⟨.field _, _, (lookup_eq_some_iff_mem hnames).mpr hfield, h⟩
  · rintro (⟨x, rfl, h⟩ | ⟨x, v, hv, h⟩)
    · exact .number h
    · obtain ⟨fields, name, rfl, rfl⟩ | ⟨items, i, rfl, rfl, _⟩ := takes_cases (takes_of_member? hv)
      · rcases ha with _ | _ | _ | ⟨hnames, _⟩
        exact .field ((lookup_eq_some_iff_mem hnames).mp hv) h
      · exact .item (List.mem_of_getElem? hv) h

/-- A value is equal to itself unless a number in it is not. -/
theorem same_self_iff (ha : a.Tidy) : a.Same a ↔ ¬a.HasNaN := by
  refine ha.member_induction (P := fun a => a.Same a ↔ ¬a.HasNaN) fun a ha ih => ?_
  rw [same_iff_members ha ha, hasNaN_iff ha, not_or]
  refine and_congr sameLeaf_self_iff ⟨?_, fun h x => ?_⟩
  · rintro h ⟨x, v, hv, hnan⟩
    have hx := h x
    rw [hv] at hx
    cases hx with
    | some hsame => exact (ih x v hv).mp hsame hnan
  · cases hv : a.member? x with
    | none => exact .none
    | some v => exact .some ((ih x v hv).mpr fun hnan => h ⟨x, v, hv, hnan⟩)

/-! ## The order of fields -/

/-- Whether one value is the other with the fields of one object, at any depth, in another order. -/
inductive Reorders : Value → Value → Prop
  | fields {fields fields' : List (String × Value)} (h : fields.Perm fields') :
      Reorders (object fields) (object fields')
  | member {c v w : Value} {x : Accessor} (hmember : c.member? x = some v) (h : Reorders v w) :
      Reorders c (c.withMember x w)

/-- Whether two values are equal to the same values. -/
def Alike (a b : Value) : Prop := ∀ c : Value, c.Tidy → (a.Same c ↔ b.Same c)

/-- Values that are equal to the same values are so the other way round. -/
theorem Alike.symm (h : a.Alike b) : b.Alike a := fun c hc => (h c hc).symm

/-- Every value is equal to the values that it is equal to. -/
theorem Alike.refl (a : Value) : a.Alike a := fun _ _ => Iff.rfl

/-- Members that are equal to the same values make containers so. -/
theorem Alike.of_members (ha : a.Tidy) (hb : b.Tidy) (hleaf : ∀ c, a.SameLeaf c ↔ b.SameLeaf c)
    (hmembers : ∀ x, Option.Rel Alike (a.member? x) (b.member? x)) : a.Alike b := by
  intro c hc
  have hrel {o o' : Option Value} {x : Accessor} (h : Option.Rel Alike o o')
      (hsame : Option.Rel Same o (c.member? x)) : Option.Rel Same o' (c.member? x) :=
    rel_trans_of (rel_symm_of h fun _ _ _ _ halike => halike.symm) hsame
      fun _ _ w _ _ hw halike hsame => (halike w (hc.of_member? hw)).mpr hsame
  rw [same_iff_members ha hc, same_iff_members hb hc]
  refine and_congr (hleaf c) ⟨fun h x => hrel (hmembers x) (h x), fun h x => ?_⟩
  exact hrel (rel_symm_of (hmembers x) fun _ _ _ _ halike => halike.symm) (h x)

/-- Every member is equal to the same values as itself, if it is there. -/
theorem Alike.rel_refl (o : Option Value) : Option.Rel Alike o o := by
  cases o with
  | none => exact .none
  | some v => exact .some (.refl v)

/-- Apart from members, an object is equal to all objects and to nothing else. -/
theorem sameLeaf_object_iff : (object fs).SameLeaf b ↔ b.kind = .object := by
  refine ⟨fun h => ?_, fun h => ?_⟩
  · cases h with
    | object => rfl
  · cases b with
    | object => exact .object _ _
    | number | array | code => cases h

/-- Apart from members, an array is equal to all arrays and to nothing else. -/
theorem sameLeaf_array_iff {items : List Value} : (array items).SameLeaf b ↔ b.kind = .array := by
  refine ⟨fun h => ?_, fun h => ?_⟩
  · cases h with
    | array => rfl
  · cases b with
    | array => exact .array _ _
    | number | object | code => cases h

/-- An array with an item put in is an array. -/
theorem exists_withMember_eq_array (items : List Value) (i : ℕ) (v : Value) :
    ∃ items', (array items).withMember (.index i) v = array items' := by
  rw [withMember]
  split
  · exact ⟨_, rfl⟩
  · exact ⟨_, rfl⟩

/-- Putting a member in makes no difference apart from members. -/
theorem sameLeaf_withMember_iff (h : c.Takes x) (v : Value) :
    (c.withMember x v).SameLeaf b ↔ c.SameLeaf b := by
  obtain ⟨fields, name, rfl, rfl⟩ | ⟨items, i, rfl, rfl, _⟩ := takes_cases h
  · rw [withMember, sameLeaf_object_iff, sameLeaf_object_iff]
  · obtain ⟨items', heq⟩ := exists_withMember_eq_array items i v
    rw [heq, sameLeaf_array_iff, sameLeaf_array_iff]

/-- A member without double fields can be put into a container without double fields. -/
theorem Tidy.withMember (h : c.Takes x) (hc : c.Tidy) (hv : v.Tidy) : (c.withMember x v).Tidy := by
  obtain ⟨fields, name, rfl, rfl⟩ | ⟨items, i, rfl, rfl, _⟩ := takes_cases h
  · exact hereditary_tidy.putField hc hv name
  · rw [hereditary_tidy.array] at hc
    rw [Value.withMember]
    split
    · refine .array (List.forall_mem_append.mpr ⟨hc, ?_⟩)
      simpa using hv
    · refine .array fun u hu => ?_
      rcases List.mem_or_eq_of_mem_set hu with hmem | rfl
      · exact hc u hmem
      · exact hv

/-- The order of the fields of one object makes no difference. -/
theorem Reorders.alike (h : a.Reorders b) (ha : a.Tidy) : b.Tidy ∧ a.Alike b := by
  induction h with
  | fields hperm =>
    rcases ha with _ | _ | _ | ⟨hnames, hfields⟩
    have ha := Tidy.object hnames hfields
    have hb := Tidy.object ((hperm.map Prod.fst).nodup_iff.mp hnames)
      fun field hfield => hfields field (hperm.mem_iff.mpr hfield)
    refine ⟨hb, .of_members ha hb (fun c => ?_) fun x => ?_⟩
    · rw [sameLeaf_object_iff, sameLeaf_object_iff]
    · cases x with
      | field name =>
        rw [member?, member?, lookup_eq_of_perm hnames hperm]
        exact Alike.rel_refl _
      | index i => exact .none
  | @member c v w x hmember h ih =>
    have htakes := takes_of_member? hmember
    obtain ⟨hw, halike⟩ := ih (ha.of_member? hmember)
    have hc := ha.withMember htakes hw
    refine ⟨hc, .of_members ha hc (fun d => (sameLeaf_withMember_iff htakes w).symm) fun y => ?_⟩
    by_cases hy : y = x
    · rw [hy, hmember, member?_withMember htakes]
      exact .some halike
    · rw [member?_withMember_of_ne htakes hy]
      exact Alike.rel_refl _

/-- Fields in any order at any depth make no difference. -/
theorem alike_of_reflTransGen (h : Relation.ReflTransGen Reorders a b) (ha : a.Tidy) :
    b.Tidy ∧ a.Alike b := by
  induction h with
  | refl => exact ⟨ha, .refl a⟩
  | tail _ hstep ih =>
    obtain ⟨hb, halike⟩ := ih
    obtain ⟨hc, halike'⟩ := hstep.alike hb
    exact ⟨hc, fun d hd => (halike d hd).trans (halike' d hd)⟩

end Value

open Relation (ReflTransGen)

/-- **Equality is well behaved.** The operator `=` tells whether two values are equal. In a session
that starts without objects that have two fields of one name, no expression has such a value, and no
variable is left with one. For all other values, equality is symmetric and transitive; a value is
equal to itself exactly if no number in it, at any depth, is NaN; and the order of the fields of
objects, at any depth on either side, makes no difference. Equal values are of the same kind, so
that no array is equal to an object and no number to either. Pieces of code are equal exactly if
they are the same block, with the same frame and the same parameters. -/
theorem equality_is_well_behaved :
    (∀ a b : Value, BinaryOp.equal.apply a b = .ok (.ofBool (a.same b))) ∧
    (∀ (σ : Type) (i : Interpreter σ) (effort : ℕ) (program : List Statement) (frame : FrameId)
      (m : Machine σ), i.registry = .standard → m.store.Tidy →
      (∀ st, (i.sessionBlock effort program frame m).Contains i st → ∀ n id expression v,
        evaluate n (st.start.store.environment id) expression = pure v → v.Tidy) ∧
      ∀ r m', i.runSession effort program frame m = some (r, m') → m'.store.Tidy) ∧
    (∀ a b : Value, a.Tidy → b.Tidy → a.same b = b.same a) ∧
    (∀ a b c : Value, a.Tidy → b.Tidy → c.Tidy →
      a.same b = true → b.same c = true → a.same c = true) ∧
    (∀ a : Value, a.Tidy → (a.same a = true ↔ ¬a.HasNaN)) ∧
    (∀ a a' b b' : Value, a.Tidy → b.Tidy → ReflTransGen Value.Reorders a a' →
      ReflTransGen Value.Reorders b b' → a.same b = a'.same b') ∧
    (∀ a b : Value, a.same b = true → a.kind = b.kind) ∧
    ∀ c d : Code, (Value.code c).same (.code d) = true ↔
      c.block = d.block ∧ c.frame = d.frame ∧ c.params = d.params := by
  refine ⟨fun _ _ => rfl, ?_, fun _ _ => Value.same_comm, fun _ _ _ => Value.Same.trans,
    fun _ => Value.same_self_iff, ?_, fun _ _ => Value.Same.kind_eq, fun _ _ => Code.same_iff⟩
  · intro σ i effort program frame m hregistry hm
    obtain ⟨hstarts, hends⟩ := Interpreter.tidy_of_runSession hregistry hm
    refine ⟨fun st hst n id expression v hv => ?_, hends⟩
    exact Value.hereditary_tidy.of_evaluate (fun _ _ => (hstarts st hst).find?) hv
  · intro a a' b b' ha hb haa hbb
    obtain ⟨ha', halike⟩ := Value.alike_of_reflTransGen haa ha
    obtain ⟨hb', halike'⟩ := Value.alike_of_reflTransGen hbb hb
    calc a.same b
      _ = a'.same b := Bool.eq_iff_iff.mpr (halike b hb)
      _ = b.same a' := Value.same_comm ha' hb
      _ = b'.same a' := Bool.eq_iff_iff.mpr (halike' a' ha')
      _ = a'.same b' := Value.same_comm hb' ha'

/-- An object within an array, with its three fields in three orders, and a session that starts with
it as the value of a variable. -/
theorem equality_is_well_behaved_nested :
    let row (fields : List (String × Value)) := Value.array [.object fields]
    let x := ("x", Value.array [])
    let y := ("y", Value.object [])
    let z := ("z", Value.array [.array []])
    let i : Interpreter Unit := { registry := .standard }
    let m : Machine Unit :=
      { store := ({} : Store).push none (some [("v", row [x, y, z])]),
        outbox := { capacity := 64 }, host := () }
    (row [x, y, z]).Tidy ∧ ¬(row [x, y, z]).HasNaN ∧
      (row [x, y, z]).Reorders (row [y, x, z]) ∧ (row [y, x, z]).Reorders (row [y, z, x]) ∧
      BinaryOp.equal.apply (row [x, y, z]) (row [y, x, z]) = .ok (.ofBool true) ∧
      BinaryOp.equal.apply (row [y, x, z]) (row [x, y, z]) = .ok (.ofBool true) ∧
      BinaryOp.equal.apply (row [x, y, z]) (row [y, z, x]) = .ok (.ofBool true) ∧
      ∃ ended, i.runSession 2 [⟨"home", [], none, .start⟩] 0 m = some (.ok (), ended) ∧
        ended.store.find? 0 "v" = some (row [x, y, z]) ∧ ended.store.Tidy := by
  intro row x y z i m
  have hrow : (row [x, y, z]).Tidy := by
    refine .array (List.forall_mem_singleton.mpr (.object (by decide) ?_))
    simp only [List.forall_mem_cons]
    exact ⟨.array (by simp), .object (by simp) (by simp),
      .array (List.forall_mem_singleton.mpr (.array (by simp))), by simp⟩
  have hnan : ¬(row [x, y, z]).HasNaN := by
    unfold row
    rintro (_ | ⟨hv, h⟩)
    cases List.mem_singleton.mp hv
    rcases h with _ | _ | ⟨hfield, h⟩
    simp only [List.mem_cons, List.not_mem_nil, or_false] at hfield
    rcases hfield with rfl | rfl | rfl
    · rcases h with _ | ⟨⟨⟩, _⟩
    · rcases h with _ | _ | ⟨⟨⟩, _⟩
    · rcases h with _ | ⟨hv, h⟩
      cases List.mem_singleton.mp hv
      rcases h with _ | ⟨⟨⟩, _⟩
  have hturn : (row [x, y, z]).Reorders (row [y, x, z]) :=
    .member (x := .index 0) rfl (.fields (.swap _ _ _))
  have hturn' : (row [y, x, z]).Reorders (row [y, z, x]) :=
    .member (x := .index 0) rfl (.fields (.cons _ (.swap _ _ _)))
  obtain ⟨hequal, hsession, hsymm, htrans, hself, horder, -⟩ := equality_is_well_behaved
  have hreordered {v w : Value} (hv : v.Tidy) (hsame : v.same v = true) (h : v.Reorders w) :
      v.same w = true := by
    rw [← horder v v v w hv hv .refl (.single h), hsame]
  have hrow' : (row [y, x, z]).Tidy := (hturn.alike hrow).1
  have hrow'' : (row [y, z, x]).Tidy := (hturn'.alike hrow').1
  have hfirst := hreordered hrow ((hself _ hrow).mpr hnan) hturn
  have hback : (row [y, x, z]).same (row [x, y, z]) = true := by rw [hsymm _ _ hrow' hrow, hfirst]
  have hsecond := hreordered hrow' (htrans _ _ _ hrow' hrow hrow' hback hfirst) hturn'
  have hstore : m.store.Tidy := Store.All.push Store.tidy_empty none (by simpa using hrow)
  have hends := (hsession Unit i 2 [⟨"home", [], none, .start⟩] 0 m rfl hstore).2
  refine ⟨hrow, hnan, hturn, hturn', ?_, ?_, ?_, _, rfl, rfl, hends _ _ rfl⟩
  · rw [hequal, hfirst]
  · rw [hequal, hback]
  · rw [hequal, htrans _ _ _ hrow hrow' hrow'' hfirst hsecond]

end Logo
