import LoanScope.Place
import LoanScope.Proofs.Ty.Spelling
import Mathlib.Data.Set.Function

/-! The texts of places. A member of a dereference is written with an arrow, and every other
dereference as a star in front of all that follows. So a text shows the stars, the variable and the
members behind it, but not at which arrow a star was meant. -/

namespace LoanScope

/-! ### Names -/

/-- Letters, the underscore, and all that lies beyond ASCII, where C leaves the choice open. -/
def isLetter (c : Char) : Bool := c.isAlpha || c = '_' || 0x80 ≤ c.toNat

/-- Whether a name is a C identifier. -/
def isIdentifier (s : String) : Bool :=
  s.toList.head?.any isLetter && s.toList.all fun c => isLetter c || c.isDigit

theorem isIdentifier.not_mem {s : String} (h : isIdentifier s) {c : Char}
    (hc : (isLetter c || c.isDigit) = false) : c ∉ s.toList := by
  intro hmem
  rw [isIdentifier, Bool.and_eq_true, List.all_eq_true] at h
  exact Bool.false_ne_true (hc.symm.trans (h.2 c hmem))

/-! ### What a text shows -/

/-- How a member is joined to what it is a member of. -/
inductive Joint where
  | dot | arrow
deriving DecidableEq

namespace Joint

def text : Joint → String
  | dot => "."
  | arrow => "->"

/-- The member of a place, or of what the place points to. -/
def link (p : Place) (field : String) : Joint → Place
  | dot => p.member field
  | arrow => p.deref.member field

/-- The last character of the text. -/
def mark : Joint → Char
  | dot => '.'
  | arrow => '>'

/-- What stands before the last character. -/
def lead : Joint → List Char
  | dot => []
  | arrow => ['-']

theorem toList_text (j : Joint) : j.text.toList = j.lead ++ [j.mark] := by
  cases j <;> decide

theorem mark_injective {j j' : Joint} (h : j.mark = j'.mark) : j = j' := by
  cases j <;> cases j' <;> simp [mark] at h ⊢

theorem eq_arrow_of_ne_dot {j : Joint} (h : j ≠ dot) : j = arrow := by
  cases j with
  | dot => exact absurd rfl h
  | arrow => rfl

end Joint

/-- What a text shows of a place: the stars in front, the variable, and the members, the last one
first. -/
structure Reading where
  stars : Nat
  root : Variable
  members : List (Joint × String)
deriving DecidableEq

namespace Reading

def star (r : Reading) : Reading := { r with stars := r.stars + 1 }

def join (r : Reading) (j : Joint) (field : String) : Reading :=
  { r with members := (j, field) :: r.members }

/-- The place that members lead to if no star is meant at any of them. -/
def chain (root : Variable) : List (Joint × String) → Place
  | [] => .var root
  | (j, field) :: rest => j.link (chain root rest) field

/-- The place that C reads: members bind closer than stars. -/
def place (r : Reading) : Place := Place.deref^[r.stars] (chain r.root r.members)

/-- The characters of a variable and the members behind it. -/
def letters (root : Variable) : List (Joint × String) → List Char
  | [] => root.name.toList
  | (j, field) :: rest => letters root rest ++ (j.text.toList ++ field.toList)

/-- All names are identifiers. -/
structure Named (r : Reading) : Prop where
  root : isIdentifier r.root.name
  members : ∀ m ∈ r.members, isIdentifier m.2

end Reading

namespace Place

/-- What the text of the place shows. -/
def reading : Place → Reading
  | var v => ⟨0, v, []⟩
  | deref p => p.reading.star
  | member (deref p) field => p.reading.join .arrow field
  | member p field => p.reading.join .dot field

/-- The names of the variable and the fields. -/
def names : Place → List String
  | var v => [v.name]
  | deref p => p.names
  | member p field => field :: p.names

/-- A place in one of some variables, with identifiers for names. -/
structure Over (vars : Set Variable) (p : Place) : Prop where
  root : p.root ∈ vars
  names : ∀ name ∈ p.names, isIdentifier name

theorem reading_member {p : Place} (field : String) (h : ∀ q, p ≠ deref q) :
    (p.member field).reading = p.reading.join .dot field := by
  cases p with
  | var v => rfl
  | deref q => exact absurd rfl (h q)
  | member q field => rfl

theorem root_reading (p : Place) : p.reading.root = p.root := by
  fun_induction reading p with
  | case1 v => rfl
  | case2 p ih => exact ih
  | case3 p field ih => exact ih
  | case4 p field _ ih => exact ih

theorem named_reading {p : Place} : p.reading.Named ↔ ∀ name ∈ p.names, isIdentifier name := by
  have hjoin : ∀ (r : Reading) j field, (r.join j field).Named ↔ isIdentifier field ∧ r.Named := by
    intro r j field
    constructor
    · intro h
      exact ⟨h.members (j, field) List.mem_cons_self, h.root,
        fun m hm => h.members m (List.mem_cons_of_mem _ hm)⟩
    · rintro ⟨hfield, h⟩
      exact ⟨h.root, List.forall_mem_cons.mpr ⟨hfield, h.members⟩⟩
  fun_induction reading p with
  | case1 v =>
      exact ⟨fun h => by simpa [names] using h.root, fun h => ⟨h v.name (by simp [names]), by simp⟩⟩
  | case2 p ih =>
      exact ⟨fun h => ih.mp ⟨h.root, h.members⟩, fun h => ⟨(ih.mpr h).root, (ih.mpr h).members⟩⟩
  | case3 p field ih => simp [hjoin, ih, names]
  | case4 p field _ ih => simp [hjoin, ih, names]

/-- What a text shows tells which variables and names a place has. -/
theorem Over.of_reading_eq {vars : Set Variable} {p q : Place} (h : p.Over vars)
    (heq : q.reading = p.reading) :
    q.Over vars := by
  refine ⟨?_, named_reading.mp (heq ▸ named_reading.mpr h.names)⟩
  rw [← root_reading, heq, root_reading]
  exact h.root

/-- The text of a place is made of what it shows. -/
theorem toList_text (p : Place) :
    p.text.toList =
      List.replicate p.reading.stars '*' ++ Reading.letters p.reading.root p.reading.members := by
  fun_induction text p with
  | case1 v => simp [reading, Reading.letters]
  | case2 p ih => simp [reading, ih, Reading.star, List.replicate_succ]
  | case3 p field ih => simp [reading, ih, Reading.join, Reading.letters, Joint.text]
  | case4 p field hno ih =>
      simp [reading_member field hno, ih, Reading.join, Reading.letters, Joint.text]

theorem text_eq_of_reading_eq {p q : Place} (h : p.reading = q.reading) : p.text = q.text := by
  rw [← String.toList_inj, toList_text, toList_text, h]

end Place

/-! ### Reading a text back -/

namespace Reading

variable {root root' : Variable} {members members' : List (Joint × String)}

theorem star_not_mem_letters (hroot : isIdentifier root.name)
    (hmembers : ∀ m ∈ members, isIdentifier m.2) :
    '*' ∉ letters root members := by
  induction members with
  | nil => exact isIdentifier.not_mem hroot (by decide)
  | cons m rest ih =>
      obtain ⟨hfield, hrest⟩ := List.forall_mem_cons.mp hmembers
      have hname : '*' ∉ m.2.toList := isIdentifier.not_mem hfield (by decide)
      have hjoint : '*' ∉ m.1.text.toList := by cases m.1 <;> decide
      simp [letters, hname, hjoint, ih hrest]

theorem mark_not_mem {name : String} (h : isIdentifier name) (j : Joint) :
    j.mark ∉ name.toList := by
  cases j <;> exact isIdentifier.not_mem h (by decide)

theorem mark_mem_letters (m : Joint × String) : m.1.mark ∈ letters root (m :: members) := by
  simp [letters, Joint.toList_text]

/-- Members are split off from the end: the last dot or `>` belongs to the last of them. -/
theorem letters_injective (hroot : isIdentifier root.name) (hroot' : isIdentifier root'.name)
    (hmembers : ∀ m ∈ members, isIdentifier m.2) (hmembers' : ∀ m ∈ members', isIdentifier m.2)
    (h : letters root members = letters root' members') :
    root.name = root'.name ∧ members = members' := by
  induction members generalizing members' with
  | nil =>
      cases members' with
      | nil => exact ⟨String.toList_inj.mp h, rfl⟩
      | cons m' rest' =>
          have hmark : m'.1.mark ∈ letters root [] := h ▸ mark_mem_letters m'
          exact absurd hmark (mark_not_mem hroot m'.1)
  | cons m rest ih =>
      cases members' with
      | nil =>
          have hmark : m.1.mark ∈ letters root' [] := h ▸ mark_mem_letters m
          exact absurd hmark (mark_not_mem hroot' m.1)
      | cons m' rest' =>
          obtain ⟨j, field⟩ := m
          obtain ⟨j', field'⟩ := m'
          obtain ⟨hfield, hrest⟩ := List.forall_mem_cons.mp hmembers
          obtain ⟨hfield', hrest'⟩ := List.forall_mem_cons.mp hmembers'
          have hno : ∀ {name : String}, isIdentifier name → ∀ c ∈ name.toList,
              ¬ ∃ i : Joint, c = i.mark := by
            rintro name hname c hc ⟨i, rfl⟩
            exact mark_not_mem hname i hc
          have hsplit : (letters root rest ++ j.lead) ++ j.mark :: field.toList =
              (letters root' rest' ++ j'.lead) ++ j'.mark :: field'.toList := by
            simpa [letters, Joint.toList_text] using h
          obtain ⟨hbefore, hmark, hname⟩ :=
            eq_of_append_cons_eq_of_not (P := fun c => ∃ i : Joint, c = i.mark)
            hsplit ⟨j, rfl⟩ ⟨j', rfl⟩ (hno hfield) (hno hfield')
          cases Joint.mark_injective hmark
          obtain ⟨hvar, hmore⟩ := ih hrest hrest' (List.append_cancel_right hbefore)
          exact ⟨hvar, by rw [hmore, String.toList_inj.mp hname]⟩

end Reading

namespace Place

/-- The stars of a text are counted, and its members are read from the end. -/
theorem reading_eq_of_text_eq {vars : Set Variable} (hvars : vars.InjOn Variable.name) {p q : Place}
    (hp : p.Over vars) (hq : q.Over vars) (h : p.text = q.text) : p.reading = q.reading := by
  have hnamed := named_reading.mpr hp.names
  have hnamed' := named_reading.mpr hq.names
  have hchars := congrArg String.toList h
  rw [toList_text, toList_text] at hchars
  have hstars : p.reading.stars = q.reading.stars := by
    have hcount := congrArg (List.count '*') hchars
    have hnone := List.count_eq_zero.mpr (Reading.star_not_mem_letters hnamed.root hnamed.members)
    have hnone' := List.count_eq_zero.mpr
      (Reading.star_not_mem_letters hnamed'.root hnamed'.members)
    simpa [hnone, hnone'] using hcount
  rw [hstars] at hchars
  obtain ⟨hname, hmembers⟩ := Reading.letters_injective hnamed.root hnamed'.root
    hnamed.members hnamed'.members (List.append_cancel_left hchars)
  have hroot : p.reading.root = q.reading.root := by
    rw [root_reading, root_reading] at hname ⊢
    exact hvars hp.root hq.root hname
  calc p.reading = ⟨p.reading.stars, p.reading.root, p.reading.members⟩ := rfl
    _ = ⟨q.reading.stars, q.reading.root, q.reading.members⟩ := by rw [hstars, hroot, hmembers]

end Place

/-! ### Places that share a text -/

namespace Reading

theorem chain_ne_deref (root : Variable) (members : List (Joint × String)) (q : Place) :
    chain root members ≠ q.deref := by
  cases members with
  | nil => simp [chain]
  | cons m rest => cases hj : m.1 <;> simp [chain, Joint.link, hj]

theorem reading_chain (root : Variable) (members : List (Joint × String)) :
    (chain root members).reading = ⟨0, root, members⟩ := by
  induction members with
  | nil => rfl
  | cons m rest ih =>
      obtain ⟨j, field⟩ := m
      cases j with
      | dot =>
          rw [chain, Joint.link, Place.reading_member field (chain_ne_deref root rest), ih]
          rfl
      | arrow =>
          rw [chain, Joint.link, Place.reading, ih]
          rfl

/-- The text of the place that C reads shows the same. -/
theorem reading_place (r : Reading) : r.place.reading = r := by
  obtain ⟨stars, root, members⟩ := r
  induction stars with
  | zero => exact reading_chain root members
  | succ stars ih =>
      rw [place, Function.iterate_succ_apply', Place.reading]
      exact congrArg star ih

end Reading

namespace Place

/-- The place with one more dereference, meant at the outermost arrow. -/
def tuck : Place → Place
  | var v => var v
  | deref p => p.tuck.deref
  | member (deref p) field => p.deref.deref.member field
  | member p field => p.tuck.member field

theorem reading_tuck {p : Place} (h : ∃ m ∈ p.reading.members, m.1 = .arrow) :
    p.tuck.reading = p.deref.reading := by
  fun_induction tuck p with
  | case1 v => simp [reading] at h
  | case2 p ih => exact congrArg Reading.star (ih h)
  | case3 p field => rfl
  | case4 p field hno ih =>
      rw [reading_member field hno, Reading.join] at h
      have hbelow : ∃ m ∈ p.reading.members, m.1 = .arrow := by simpa using h
      have htuck : ∀ q, p.tuck ≠ deref q := by
        cases p with
        | var v => simp [tuck]
        | deref q => exact absurd rfl (hno q)
        | member q field => cases q <;> simp [tuck]
      rw [reading_member field htuck, ih hbelow, reading, reading, reading_member field hno]
      rfl

theorem tuck_ne_deref {p : Place} (h : ∃ m ∈ p.reading.members, m.1 = .arrow) :
    p.tuck ≠ p.deref := by
  fun_induction tuck p with
  | case1 v => simp
  | case2 p ih =>
      intro heq
      exact ih h (deref.inj heq)
  | case3 p field => simp
  | case4 p field hno ih => simp

/-- Without stars, there is one place for the members. -/
theorem place_reading_of_stars {p : Place} (h : p.reading.stars = 0) : p.reading.place = p := by
  have hjoin : ∀ (r : Reading) j field, r.stars = 0 →
      (r.join j field).place = j.link r.place field := by
    intro r j field hr
    simp [Reading.place, Reading.join, Reading.chain, hr]
  fun_induction reading p with
  | case1 v => rfl
  | case2 p ih => simp [Reading.star] at h
  | case3 p field ih =>
      have hbase : p.reading.stars = 0 := h
      rw [hjoin _ _ _ hbase, ih hbase, Joint.link]
  | case4 p field _ ih =>
      have hbase : p.reading.stars = 0 := h
      rw [hjoin _ _ _ hbase, ih hbase, Joint.link]

theorem stars_of_dots {p : Place} (hno : ∀ q, p ≠ deref q)
    (h : ∀ m ∈ p.reading.members, m.1 = .dot) :
    p.reading.stars = 0 := by
  fun_induction reading p with
  | case1 v => rfl
  | case2 p ih => exact absurd rfl (hno p)
  | case3 p field ih => simp [Reading.join] at h
  | case4 p field hbase ih => exact ih hbase fun m hm => h m (List.mem_cons_of_mem _ hm)

/-- Without arrows, all stars belong in front. -/
theorem place_reading_of_dots {p : Place} (h : ∀ m ∈ p.reading.members, m.1 = .dot) :
    p.reading.place = p := by
  induction p with
  | var v => rfl
  | deref p ih =>
      rw [reading, Reading.place, Reading.star, Function.iterate_succ_apply']
      exact congrArg deref (ih h)
  | member p field _ => exact place_reading_of_stars (stars_of_dots (by simp) h)

/-- With a star and an arrow, the star is meant in front or at the arrow, and the text does not
tell. -/
theorem exists_ne_of_reading {p : Place} (hstars : p.reading.stars ≠ 0)
    (harrow : ∃ m ∈ p.reading.members, m.1 = .arrow) :
    ∃ q : Place, q.reading = p.reading ∧ q ≠ p := by
  obtain ⟨stars, hsucc⟩ := Nat.exists_eq_add_one_of_ne_zero hstars
  -- The place as C reads it, without its outermost star.
  let inner : Place := Reading.place ⟨stars, p.reading.root, p.reading.members⟩
  have hread : inner.reading = ⟨stars, p.reading.root, p.reading.members⟩ := Reading.reading_place _
  have hinner : inner.deref.reading = p.reading := by
    simp [reading, hread, Reading.star, ← hsucc]
  have harrow' : ∃ m ∈ inner.reading.members, m.1 = .arrow := hread ▸ harrow
  by_cases hp : p = inner.deref
  · exact ⟨inner.tuck, (reading_tuck harrow').trans hinner, hp ▸ tuck_ne_deref harrow'⟩
  · exact ⟨inner.deref, hinner, Ne.symm hp⟩

/-- The text of a place names the place that C reads in it, and with it all places that show the
same stars, variable and members. A place is the only one of its text exactly if it shows no star or
no arrow. -/
theorem text_eq_iff (vars : Set Variable) (hvars : vars.InjOn Variable.name) (p : Place)
    (hp : p.Over vars) :
    p.reading.place.Over vars ∧ p.reading.place.text = p.text ∧
    (∀ q : Place, q.Over vars → (p.text = q.text ↔ p.reading = q.reading)) ∧
    ((∀ q : Place, q.Over vars → p.text = q.text → p = q) ↔
      p.reading.stars = 0 ∨ ∀ m ∈ p.reading.members, m.1 = .dot) := by
  have hread := p.reading.reading_place
  have htext : ∀ q : Place, q.Over vars → (p.text = q.text ↔ p.reading = q.reading) := fun q hq =>
    ⟨reading_eq_of_text_eq hvars hp hq, text_eq_of_reading_eq⟩
  refine ⟨hp.of_reading_eq hread, text_eq_of_reading_eq hread, htext, ?_, ?_⟩
  · intro hunique
    by_contra hloose
    obtain ⟨hstars, hdots⟩ := not_or.mp hloose
    have harrow : ∃ m ∈ p.reading.members, m.1 = .arrow := by
      simp only [not_forall] at hdots
      obtain ⟨m, hm, hdot⟩ := hdots
      exact ⟨m, hm, Joint.eq_arrow_of_ne_dot hdot⟩
    obtain ⟨q, hq, hne⟩ := exists_ne_of_reading hstars harrow
    exact hne (hunique q (hp.of_reading_eq hq) (text_eq_of_reading_eq hq.symm)).symm
  · intro hclear q hq heq
    have hsame : p.reading = q.reading := (htext q hq).mp heq
    rcases hclear with hstars | hdots
    · rw [← place_reading_of_stars hstars, hsame, place_reading_of_stars (hsame ▸ hstars)]
    · rw [← place_reading_of_dots hdots, hsame, place_reading_of_dots (hsame ▸ hdots)]

/-- The value of the node after the first of a list, with an arrow at both steps and no star. -/
def secondValue : Place := ((var ⟨0, "list"⟩).deref.member "next").deref.member "value"

/-- Beside `tail`, nothing but the second value of `list` is written as it is. -/
theorem text_eq_iff_secondValue :
    secondValue.Over {⟨0, "list"⟩, ⟨1, "tail"⟩} ∧
      ∀ q : Place, q.Over {⟨0, "list"⟩, ⟨1, "tail"⟩} → q.text = "list->next->value" →
        q = secondValue := by
  have hvars : Set.InjOn Variable.name {⟨0, "list"⟩, ⟨1, "tail"⟩} := by
    intro v hv w hw hname
    rcases hv with rfl | rfl <;> rcases hw with rfl | rfl <;> simp_all
  have hover : secondValue.Over {⟨0, "list"⟩, ⟨1, "tail"⟩} := ⟨.inl rfl, by decide⟩
  obtain ⟨-, -, -, hunique⟩ := text_eq_iff {⟨0, "list"⟩, ⟨1, "tail"⟩} hvars secondValue hover
  refine ⟨hover, fun q hq htext => ?_⟩
  have hown : secondValue.text = "list->next->value" := by decide
  exact (hunique.mpr (.inl rfl) q hq (hown.trans htext.symm)).symm

/-- Texts are ambiguous: the member `next` of `**s`, and what the member `next` of `*s` points to,
are both written `*s->next`. -/
theorem not_text_injective :
    ¬ ∀ vars : Set Variable, vars.InjOn Variable.name → ∀ p q : Place, p.Over vars → q.Over vars →
      p.text = q.text → p = q := by
  intro h
  have hover : ∀ p : Place, p.root = ⟨0, "s"⟩ → (p.names.all isIdentifier) → p.Over {⟨0, "s"⟩} :=
    fun p hroot hnames => ⟨hroot, by simpa using hnames⟩
  have heq := h {⟨0, "s"⟩} (Set.injOn_singleton _ _) ((var ⟨0, "s"⟩).deref.deref.member "next")
    ((var ⟨0, "s"⟩).deref.member "next").deref (hover _ rfl (by decide))
      (hover _ rfl (by decide)) (by decide)
  cases heq

end Place

end LoanScope
