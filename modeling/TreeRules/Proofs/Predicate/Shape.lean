import Mathlib
import TreeRules.Predicate.Reader

/-! # Shapes of predicates

A reader takes a value apart and trusts that its parts are of a kind that it can work with. Where a
part is not, the reading ends in an error of access, which is no fault of the document in the sense
of its error type. Shapes say, value by value, what a reader relies on. A reader and a shape fit if
the reader never succeeds on a value without the shape, and fails with errors of access on no other
values.
-/
namespace TreeRules

namespace Error

/-- The fault of a rule document. -/
def isRules : Error → Bool
  | .rules _ => true
  | _ => false

/-- The fault of a rule document or of a predicate. -/
def isFault : Error → Bool
  | .rules _ | .predicate _ => true
  | _ => false

/-- A part of a value is of a kind that cannot be worked with. -/
def isAccess : Error → Bool
  | .wrongKind | .noPart | .value (.badInteger _) => true
  | _ => false

end Error

/-! ## Outcomes that fit a shape -/

/-- An outcome fits a shape: it is only there with it, and its errors are those that are expected,
or errors of access where the shape is missing. -/
structure Fits {α : Type} (expected : Error → Bool) (outcome : Outcome α) (shape : Prop) :
    Prop where
  of_ok : ∀ a, outcome = .ok a → shape
  of_error : ∀ error, outcome = .error error →
    expected error = true ∨ error.isAccess = true ∧ ¬shape

namespace Fits

variable {α β : Type} {expected : Error → Bool} {outcome : Outcome α} {shape other : Prop}

theorem ok (a : α) (h : shape) : Fits expected (.ok a : Outcome α) shape :=
  ⟨fun _ _ => h, nofun⟩

theorem fault {error : Error} (h : expected error = true) :
    Fits expected (.error error : Outcome α) shape := by
  refine ⟨nofun, ?_⟩
  rintro _ ⟨rfl⟩
  exact .inl h

theorem access {error : Error} (h : error.isAccess = true) (hshape : ¬shape) :
    Fits expected (.error error : Outcome α) shape := by
  refine ⟨nofun, ?_⟩
  rintro _ ⟨rfl⟩
  exact .inr ⟨h, hshape⟩

/-- An error that is passed on, in a place where more may be asked of the shape. -/
theorem error {error : Error} (h : Fits expected (.error error : Outcome α) shape)
    (hshape : other → shape) : Fits expected (.error error : Outcome β) other := by
  rcases h.of_error error rfl with hexpected | ⟨haccess, hno⟩
  · exact fault hexpected
  · exact access haccess fun hother => hno (hshape hother)

theorem congr (h : Fits expected outcome shape) (hiff : shape ↔ other) :
    Fits expected outcome other := by
  rwa [← hiff]

theorem weaken {wider : Error → Bool} (h : Fits expected outcome shape)
    (hwider : ∀ error, expected error = true → wider error = true) : Fits wider outcome shape := by
  refine ⟨h.of_ok, fun error herror => ?_⟩
  rcases h.of_error error herror with hexpected | haccess
  · exact .inl (hwider error hexpected)
  · exact .inr haccess

theorem map {f : α → β} (h : Fits expected outcome shape) :
    Fits expected (outcome.map f) shape := by
  constructor
  · intro b hb
    obtain ⟨a, ha, -⟩ := Outcome.map_eq_ok.1 hb
    exact h.of_ok a ha
  · intro error herror
    exact h.of_error error (Outcome.map_eq_error.1 herror)

theorem bind {next : α → Outcome β} (h : Fits expected outcome shape)
    (hnext : ∀ a, outcome = .ok a → Fits expected (next a) other) :
    Fits expected (outcome >>= next) (shape ∧ other) := by
  constructor
  · intro b hb
    obtain ⟨a, ha, hb⟩ := Outcome.bind_eq_ok.1 hb
    exact ⟨h.of_ok a ha, (hnext a ha).of_ok b hb⟩
  · intro error herror
    rcases Outcome.bind_eq_error.1 herror with herror | ⟨a, ha, herror⟩
    · rcases h.of_error error herror with hexpected | ⟨haccess, hshape⟩
      · exact .inl hexpected
      · exact .inr ⟨haccess, fun hboth => hshape hboth.1⟩
    · rcases (hnext a ha).of_error error herror with hexpected | ⟨haccess, hshape⟩
      · exact .inl hexpected
      · exact .inr ⟨haccess, fun hboth => hshape hboth.2⟩

theorem bind_of_true {next : α → Outcome β} (h : Fits expected outcome True)
    (hnext : ∀ a, outcome = .ok a → Fits expected (next a) shape) :
    Fits expected (outcome >>= next) shape :=
  (h.bind hnext).congr (and_iff_right trivial)

/-- What follows the last step that can fail. -/
theorem bind_ok {next : α → Outcome β} (h : Fits expected outcome shape)
    (hnext : ∀ a, ∃ b, next a = .ok b) : Fits expected (outcome >>= next) shape := by
  refine (h.bind fun a _ => ?_).congr (and_iff_left trivial)
  obtain ⟨b, hb⟩ := hnext a
  rw [hb]
  exact ok b trivial

theorem mapM {step : α → Outcome β} {shapes : α → Prop} {items : List α}
    (h : ∀ item ∈ items, Fits expected (step item) (shapes item)) :
    Fits expected (items.mapM step) (∀ item ∈ items, shapes item) := by
  induction items with
  | nil => exact ok [] nofun
  | cons item rest ih =>
    obtain ⟨hitem, hrest⟩ := List.forall_mem_cons.1 h
    rw [List.mapM_cons]
    refine ((hitem.bind fun first _ => ?_).congr List.forall_mem_cons.symm)
    exact (ih hrest).bind_ok fun results => ⟨first :: results, rfl⟩

end Fits

/-! ## Shapes -/

namespace Shape

def text : Value → Bool
  | .text _ => true
  | _ => false

/-- An element of a chain: nothing, or a pattern. -/
def link : Value → Bool
  | .null | .text _ => true
  | _ => false

/-- A list of up to three elements. Any other value is refused as a chain. -/
def chain : Value → Bool
  | .list [node] => link node
  | .list [node, parent] => link node && link parent
  | .list [node, parent, grandparent] => link node && link parent && link grandparent
  | _ => true

mutual

/-- An entry for a predicate: whatever its tests take for a pattern is a text. What is no mapping is
refused as a predicate. -/
def predicate : Value → Bool
  | .mapping entries =>
    Predicate.order.all fun key => ((parts entries).lookup key).getD true
  | _ => true

def parts : List (String × Value) → List (String × Bool)
  | [] => []
  | (key, value) :: rest => (key, part key value) :: parts rest

def part (key : String) (value : Value) : Bool :=
  match key with
  | "node" | "parent" | "text" | "line" => text value
  | "chain" => chain value
  | "field" => field value
  | "all" | "any" => tests value
  | "not" => predicate value
  | _ => true

def field : Value → Bool
  | .mapping entries => inner entries
  | _ => true

/-- The further test of a field, if there is one. -/
def inner : List (String × Value) → Bool
  | [] => true
  | (key, value) :: rest => if key = "match" then predicate value else inner rest

def tests : Value → Bool
  | .list items => each items
  | _ => true

def each : List Value → Bool
  | [] => true
  | item :: rest => predicate item && each rest

end

end Shape

/-! ## Readers of predicates -/

namespace Predicate

theorem pattern_fits (use : PatternUse) (value : Value) :
    Fits Error.isFault (Pattern.ofValue use value) (Shape.text value = true) := by
  cases value with
  | text source =>
    rw [Pattern.ofValue]
    split
    · exact .ok _ rfl
    · exact .fault rfl
  | _ => exact .access rfl nofun

theorem linkOf_fits (value : Value) :
    Fits Error.isFault (linkOf value) (Shape.link value = true) := by
  cases value with
  | null => exact .ok _ rfl
  | text source =>
    unfold linkOf
    split
    · exact .ok _ rfl
    · exact .ok _ rfl
    · exact (pattern_fits .type (.text source)).map
  | _ => exact .access rfl nofun

theorem chainOf_fits (value : Value) :
    Fits Error.isFault (chainOf value) (Shape.chain value = true) := by
  unfold chainOf Shape.chain
  split
  next node =>
    exact (linkOf_fits node).bind_ok fun _ => ⟨_, rfl⟩
  next node parent =>
    rw [Bool.and_eq_true]
    refine (linkOf_fits node).bind fun _ _ => ?_
    exact (linkOf_fits parent).bind_ok fun _ => ⟨_, rfl⟩
  next node parent grandparent =>
    rw [Bool.and_eq_true, Bool.and_eq_true, and_assoc]
    refine (linkOf_fits node).bind fun _ _ => (linkOf_fits parent).bind fun _ _ => ?_
    exact (linkOf_fits grandparent).bind_ok fun _ => ⟨_, rfl⟩
  next => exact .fault rfl

theorem inDocument_fits {α : Type} {outcome : Outcome α} {shape : Prop}
    (h : Fits Error.isFault outcome shape) : Fits Error.isRules (inDocument outcome) shape := by
  cases outcome with
  | ok a => exact .ok a (h.of_ok a rfl)
  | error error =>
    rcases h.of_error error rfl with hfault | ⟨haccess, hshape⟩
    · cases error with
      | rules fault => exact .fault rfl
      | predicate fault => exact .fault rfl
      | _ => cases hfault
    · cases error with
      | predicate fault => cases haccess
      | _ => exact .access haccess hshape

/-- The parts of a mapping in step with their shapes. -/
def PartsFit (read : List (String × Outcome (Option Predicate))) (shapes : List (String × Bool)) :
    Prop :=
  List.Forall₂ (fun x y => x.1 = y.1 ∧ Fits Error.isFault x.2 (y.2 = true)) read shapes

theorem PartsFit.lookup {read : List (String × Outcome (Option Predicate))}
    {shapes : List (String × Bool)} (h : PartsFit read shapes) (key : String) :
    (read.lookup key = none ∧ shapes.lookup key = none) ∨ ∃ outcome shape,
      read.lookup key = some outcome ∧ shapes.lookup key = some shape ∧
        Fits Error.isFault outcome (shape = true) := by
  induction h with
  | nil => exact .inl ⟨rfl, rfl⟩
  | @cons x y _ _ hfirst _ ih =>
    obtain ⟨name, outcome⟩ := x
    obtain ⟨_, shape⟩ := y
    obtain ⟨rfl, hfits⟩ := hfirst
    by_cases hkey : key = name
    · refine .inr ⟨outcome, shape, ?_, ?_, hfits⟩ <;> simp [hkey]
    · have hother : (key == name) = false := beq_eq_false_iff_ne.2 hkey
      simpa only [List.lookup_cons, hother] using ih

theorem inOrder_fits {read : List (String × Outcome (Option Predicate))}
    {shapes : List (String × Bool)} (h : PartsFit read shapes) (keys : List String) :
    Fits Error.isFault (inOrder read keys)
      (∀ key ∈ keys, (shapes.lookup key).getD true = true) := by
  induction keys with
  | nil => exact .ok [] nofun
  | cons key rest ih =>
    rw [inOrder, List.forall_mem_cons]
    obtain ⟨hread, hshape⟩ | ⟨outcome, shape, hread, hshape, hfits⟩ := h.lookup key
    · rw [hread, hshape]
      exact ih.congr (and_iff_right rfl).symm
    · rw [hread, hshape, Option.getD_some]
      cases outcome with
      | error error => exact hfits.error And.left
      | ok found =>
        have hfound := hfits.of_ok found rfl
        cases found with
        | none => exact ih.congr (and_iff_right hfound).symm
        | some test => exact ih.map.congr (and_iff_right hfound).symm

theorem isFault_of_isRules (error : Error) (h : error.isRules = true) : error.isFault = true := by
  cases error with
  | rules fault => rfl
  | _ => cases h

-- The recursion is that of the readers: through the entries of a mapping, the further test of a
-- field and the items of a list.
mutual

theorem ofValue_fits (entry : Value) :
    Fits Error.isRules (ofValue entry) (Shape.predicate entry = true) := by
  match entry with
  | .text word =>
    rw [ofValue, ofWord]
    split
    · exact .ok _ (by simp only [Shape.predicate])
    · split
      · exact .ok _ (by simp only [Shape.predicate])
      · exact .fault rfl
  | .mapping entries =>
    rw [ofValue, Shape.predicate, List.all_eq_true]
    split
    · exact .fault rfl
    · split
      · exact .fault rfl
      · have hparts := inDocument_fits (inOrder_fits (partsOf_fit entries entries) order)
        split
        next tests htests =>
          have hshape := hparts.of_ok tests htests
          unfold combine
          split
          · exact .fault rfl
          · exact .ok _ hshape
          · exact .ok _ hshape
        next error herror =>
          rw [herror] at hparts
          exact hparts.error id
  | .null | .bool _ | .int _ | .real _ | .list _ =>
    simp only [ofValue]
    exact .fault rfl
termination_by (sizeOf entry, 0)

theorem partsOf_fit (whole entries : List (String × Value)) :
    PartsFit (partsOf whole entries) (Shape.parts entries) := by
  match entries with
  | [] =>
    rw [partsOf, Shape.parts]
    exact .nil
  | (key, value) :: rest =>
    rw [partsOf, Shape.parts]
    exact .cons ⟨rfl, partOf_fits whole key value⟩ (partsOf_fit whole rest)
termination_by (sizeOf entries, 0)

theorem partOf_fits (whole : List (String × Value)) (key : String) (value : Value) :
    Fits Error.isFault (partOf whole key value) (Shape.part key value = true) := by
  unfold partOf Shape.part
  split
  · exact (pattern_fits .type value).map
  · exact (pattern_fits .type value).map
  · exact (chainOf_fits value).map
  · exact (fieldOf_fits value).map
  · unfold queryOf
    split
    · exact .ok _ rfl
    · exact .fault rfl
  · exact (pattern_fits .text value).map
  · exact (pattern_fits .line value).map
  · exact .ok _ rfl
  · exact .ok _ rfl
  · exact (listOf_fits "all" value).map
  · exact (listOf_fits "any" value).map
  · exact ((ofValue_fits value).weaken isFault_of_isRules).map
  · exact .ok _ (by simp [*])
termination_by (sizeOf value, 1)

theorem fieldOf_fits (value : Value) :
    Fits Error.isFault (fieldOf value) (Shape.field value = true) := by
  match value with
  | .text name =>
    rw [fieldOf]
    exact .ok _ (by simp only [Shape.field])
  | .mapping entries =>
    rw [fieldOf, Shape.field]
    split
    · obtain ⟨hnone, hinner⟩ | ⟨outcome, hsome, hinner⟩ := matchOf_fits entries
      · rw [hnone]
        exact .ok _ hinner
      · rw [hsome]
        cases outcome with
        | ok test => exact .ok _ (hinner.of_ok test rfl)
        | error error => exact (hinner.weaken isFault_of_isRules).error id
    · exact .fault rfl
  | .null | .bool _ | .int _ | .real _ | .list _ =>
    simp only [fieldOf]
    exact .fault rfl
termination_by (sizeOf value, 0)

theorem matchOf_fits (entries : List (String × Value)) :
    (matchOf entries = none ∧ Shape.inner entries = true) ∨
      ∃ outcome, matchOf entries = some outcome ∧
        Fits Error.isRules outcome (Shape.inner entries = true) := by
  match entries with
  | [] =>
    rw [matchOf, Shape.inner]
    exact .inl ⟨rfl, rfl⟩
  | (key, value) :: rest =>
    rw [matchOf, Shape.inner]
    split
    · exact .inr ⟨_, rfl, ofValue_fits value⟩
    · exact matchOf_fits rest
termination_by (sizeOf entries, 0)

theorem listOf_fits (key : String) (value : Value) :
    Fits Error.isFault (listOf key value) (Shape.tests value = true) := by
  match value with
  | .list [] =>
    simp only [listOf]
    exact .fault rfl
  | .list (item :: rest) =>
    rw [listOf, Shape.tests]
    exact (itemsOf_fits (item :: rest)).weaken isFault_of_isRules
  | .text _ | .mapping _ | .null | .bool _ | .int _ | .real _ =>
    simp only [listOf]
    exact .fault rfl
termination_by (sizeOf value, 0)

theorem itemsOf_fits (items : List Value) :
    Fits Error.isRules (itemsOf items) (Shape.each items = true) := by
  match items with
  | [] =>
    rw [itemsOf, Shape.each]
    exact .ok _ rfl
  | item :: rest =>
    have hitem := ofValue_fits item
    rw [itemsOf, Shape.each, Bool.and_eq_true]
    split
    next test htest =>
      exact (itemsOf_fits rest).map.congr (and_iff_right (hitem.of_ok test htest)).symm
    next error herror =>
      rw [herror] at hitem
      exact hitem.error And.left
termination_by (sizeOf items, 0)

end

end Predicate

end TreeRules
