import LoanScope.Json.Decode

/-! Typed reading of JSON values undoes writing: of primitive values, lists, values that may be
null, and records and tagged values among whose members others may stand. -/

namespace LoanScope.Json

/-! ### Primitive values -/

@[simp] theorem string?_str (s : String) : string? (str s) = some s := rfl

@[simp] theorem bool?_bool (b : Bool) : bool? (bool b) = some b := rfl

@[simp] theorem double?_float (x : Binary64) : double? (float x) = some x := rfl

@[simp] theorem name?_str (s : String) : name? (str s) = some s := rfl

@[simp] theorem char?_singleton (c : Char) : char? (str (String.singleton c)) = some c := by
  simp [char?]

@[simp] theorem uint32?_toNat (n : UInt32) : uint32? (int n.toNat) = some n := by
  have hlt : n.toNat < UInt32.size := n.toNat_lt
  simp [uint32?, hlt]

@[simp] theorem int64?_toInt (n : Int64) : int64? (int n.toInt) = some n := by
  simp only [int64?, n.minValue_le_toInt, n.toInt_le, and_self, if_true, Int64.ofInt_toInt]

/-! ### Lists and values that may be null -/

section Containers

variable {α : Type} {read : Json → Option α} {write : α → Json}

theorem list?_ofList {l : List α} (h : ∀ a ∈ l, read (write a) = some a) :
    list? read (ofList write l) = some l := by
  simp only [ofList, list?]
  induction l with
  | nil => rfl
  | cons a rest ih =>
      have hrest := ih fun b hb => h b (List.mem_cons_of_mem a hb)
      rw [List.map_cons, List.mapM_cons, h a List.mem_cons_self, hrest]
      rfl

/-- Null stands for a missing value, so a value that is there must not be written as null. -/
theorem nullable?_ofOption {o : Option α} (hnull : read null = none)
    (h : ∀ a ∈ o, read (write a) = some a) :
    nullable? read (ofOption write o) = some o := by
  cases o with
  | none => rfl
  | some a =>
      have hread : read (write a) = some a := h a rfl
      rw [ofOption]
      generalize write a = v at hread
      cases v with
      | null => rw [hnull] at hread; cases hread
      | _ => rw [nullable?, hread, Option.map_some]; simp

end Containers

/-! ### Nesting -/

@[simp] theorem depth_str (s : String) : (str s).depth = 0 := rfl

@[simp] theorem depth_bool (b : Bool) : (bool b).depth = 0 := rfl

@[simp] theorem depth_int (n : Int) : (int n).depth = 0 := rfl

theorem depthElements_le_iff {elements : List Json} {d : Nat} :
    depthElements elements ≤ d ↔ ∀ v ∈ elements, v.depth ≤ d := by
  induction elements with
  | nil => simp [depthElements]
  | cons v rest ih => rw [depthElements, Nat.max_le, ih, List.forall_mem_cons]

theorem depthMembers_le_iff {members : Fields} {d : Nat} :
    depthMembers members ≤ d ↔ ∀ m ∈ members, m.2.depth ≤ d := by
  induction members with
  | nil => simp [depthMembers]
  | cons m rest ih => rw [depthMembers, Nat.max_le, ih, List.forall_mem_cons]

@[simp] theorem depth_obj_le_succ_iff {members : Fields} {d : Nat} :
    (obj members).depth ≤ d + 1 ↔ ∀ m ∈ members, m.2.depth ≤ d := by
  rw [depth, Nat.add_le_add_iff_right, depthMembers_le_iff]

theorem depth_le_of_obj {members : Fields} {d : Nat} (h : (obj members).depth ≤ d) :
    ∀ m ∈ members, m.2.depth ≤ d := by
  rw [depth] at h
  exact depthMembers_le_iff.mp (Nat.le_of_succ_le h)

theorem list?_ofList_of_depth {α : Type} {read : Json → Option α} {write : α → Json} {l : List α}
    {d : Nat} (hread : ∀ a, (write a).depth ≤ d → read (write a) = some a)
    (h : (ofList write l).depth ≤ d) :
    list? read (ofList write l) = some l := by
  rw [ofList, depth] at h
  have hall := depthElements_le_iff.mp (Nat.le_of_succ_le h)
  exact list?_ofList fun a ha => hread a (hall _ (List.mem_map_of_mem ha))

/-! ### Fields, records and tagged values -/

namespace Fields

variable {α : Type} {name key : String} {v : Json} {rest : Fields} {default : α}
  {f : Json → Option α}

@[simp] theorem need?_cons_self : need? ((name, v) :: rest) name f = f v := by
  simp [need?]

@[simp] theorem need?_cons_of_ne (h : name ≠ key) :
    need? ((key, v) :: rest) name f = need? rest name f := by
  have hne : (name == key) = false := beq_false_of_ne h
  simp [need?, List.lookup_cons, hne]

@[simp] theorem getD?_cons_self : getD? ((name, v) :: rest) name default f = f v := by
  simp [getD?]

@[simp] theorem getD?_cons_of_ne (h : name ≠ key) :
    getD? ((key, v) :: rest) name default f = getD? rest name default f := by
  have hne : (name == key) = false := beq_false_of_ne h
  simp [getD?, List.lookup_cons, hne]

@[simp] theorem opt?_cons_self : opt? ((name, v) :: rest) name f = nullable? f v := by
  simp [opt?]

@[simp] theorem opt?_cons_of_ne (h : name ≠ key) :
    opt? ((key, v) :: rest) name f = opt? rest name f := by
  simp [opt?, h]

end Fields

section Members

variable {names : List String} {pre members post : Fields} {p : String × Json → Bool}

theorem filter_inner (hothers : ∀ m ∈ pre ++ post, p m = false)
    (hmembers : ∀ m ∈ members, p m = true) :
    (pre ++ members ++ post).filter p = members := by
  have hnone : (pre ++ post).filter p = [] :=
    List.filter_eq_nil_iff.mpr fun m hm => by simp [hothers m hm]
  rw [List.filter_append, List.append_eq_nil_iff] at hnone
  rw [List.filter_append, List.filter_append, hnone.1, hnone.2, List.filter_eq_self.mpr hmembers,
    List.nil_append, List.append_nil]

theorem filter_outer (hothers : ∀ m ∈ pre ++ post, p m = true)
    (hmembers : ∀ m ∈ members, p m = false) :
    (pre ++ members ++ post).filter p = pre ++ post := by
  have hnone : members.filter p = [] :=
    List.filter_eq_nil_iff.mpr fun m hm => by simp [hmembers m hm]
  rw [List.filter_append, List.filter_append, hnone, List.append_nil, ← List.filter_append,
    List.filter_eq_self.mpr hothers]

/-- A record is read from its own members, whatever others stand around them. -/
theorem record?_inner (hothers : ∀ m ∈ pre ++ post, m.1 ∉ names)
    (hmembers : ∀ m ∈ members, m.1 ∈ names) (hnodup : (members.map Prod.fst).Nodup) :
    record? names (obj (pre ++ members ++ post)) = some members := by
  have hknown : (pre ++ members ++ post).filter (fun m => m.1 ∈ names) = members :=
    filter_inner (fun m hm => by simpa using hothers m hm)
      (fun m hm => by simpa using hmembers m hm)
  simp only [record?, hknown, hnodup, if_true]

/-- A record is read from its own members, whatever others stand between them. -/
theorem record?_outer (hothers : ∀ m ∈ pre ++ post, m.1 ∈ names)
    (hmembers : ∀ m ∈ members, m.1 ∉ names) (hnodup : ((pre ++ post).map Prod.fst).Nodup) :
    record? names (obj (pre ++ members ++ post)) = some (pre ++ post) := by
  have hknown : (pre ++ members ++ post).filter (fun m => m.1 ∈ names) = pre ++ post :=
    filter_outer (fun m hm => by simpa using hothers m hm)
      (fun m hm => by simpa using hmembers m hm)
  simp only [record?, hknown, hnodup, if_true]

@[simp] theorem record?_obj (hmembers : ∀ m ∈ members, m.1 ∈ names)
    (hnodup : (members.map Prod.fst).Nodup) :
    record? names (obj members) = some members := by
  have hnone : ∀ m ∈ ([] ++ [] : Fields), m.1 ∉ names := by simp
  have h := record?_inner hnone hmembers hnodup
  rwa [List.nil_append, List.append_nil] at h

variable {tags : List String} {tag : String}

/-- The tag is taken out of the members around it. -/
theorem tagged?_around (positions : Bool) (htag : tag ∈ tags)
    (hothers : ∀ m ∈ pre ++ (members ++ post), m.1 ≠ "kind") :
    tagged? positions tags (obj (pre ++ ("kind", str tag) :: members ++ post)) =
      some (tag, obj (pre ++ members ++ post)) := by
  have hsplit : pre ++ ("kind", str tag) :: members ++ post =
      pre ++ [("kind", str tag)] ++ (members ++ post) := by simp
  have hkind : (pre ++ [("kind", str tag)] ++ (members ++ post)).filter (fun m => m.1 = "kind") =
      [("kind", str tag)] :=
    filter_inner (fun m hm => by simpa using hothers m hm) (by simp)
  have hrest : (pre ++ [("kind", str tag)] ++ (members ++ post)).filter (fun m => m.1 ≠ "kind") =
      pre ++ (members ++ post) :=
    filter_outer (fun m hm => by simpa using hothers m hm) (by simp)
  rw [hsplit, List.append_assoc pre members post]
  simp only [tagged?, hkind, hrest, tag?, htag, if_true]
  rfl

@[simp] theorem tagged?_obj {positions : Bool} (htag : tag ∈ tags)
    (hothers : ∀ m ∈ members, m.1 ≠ "kind") :
    tagged? positions tags (obj (("kind", str tag) :: members)) = some (tag, obj members) := by
  have hall : ∀ m ∈ [] ++ (members ++ []), m.1 ≠ "kind" := by simpa using hothers
  have h := tagged?_around positions htag hall
  rwa [List.nil_append, List.nil_append, List.append_nil, List.append_nil] at h

end Members

end LoanScope.Json
