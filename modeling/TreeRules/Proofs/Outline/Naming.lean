import Mathlib
import TreeRules.Proofs.Outline.Agreement
import TreeRules.Proofs.Outline.Tour
import TreeRules.Proofs.Ruleset.Acceptance

/-! # Names that are out of reach

The child that holds a name is given by a field or by a number. A number names a child from the
front, or from the back if it is negative. Behind the last child it names none, and the definition
has no name; before the first child it is out of reach, and asking for the name fails. Rules are
accepted with any number, so this decides for which nodes a name can be asked for, and whether a
document has an outline.
-/
namespace TreeRules

namespace Slice

variable {α : Type} {items : List α} {position : Int} {a : α}

theorem index?_eq_some_iff {length i : Nat} : index? length position = some i ↔
    i < length ∧ (position = i ∨ position = (i : Int) - length) := by
  simp only [index?, Option.ite_none_right_eq_some, Option.some.injEq]
  split <;> omega

/-- A position names the item that has as many items in front of it, or, if it is negative, the item
behind which one item less is left. -/
theorem item?_eq_some_iff : item? items position = some a ↔ ∃ before after,
    items = before ++ a :: after ∧ (position = before.length ∨ position = -(after.length + 1)) := by
  simp only [item?, Option.bind_eq_some_iff, index?_eq_some_iff]
  constructor
  · rintro ⟨i, ⟨hlt, hposition⟩, ha⟩
    obtain ⟨_, rfl⟩ := List.getElem?_eq_some_iff.1 ha
    refine ⟨items.take i, items.drop (i + 1), by simp, ?_⟩
    rw [List.length_take_of_le (Nat.le_of_lt hlt), List.length_drop]
    omega
  · rintro ⟨before, after, rfl, hposition⟩
    refine ⟨before.length, ⟨by simp, ?_⟩, by simp⟩
    simp only [List.length_append, List.length_cons]
    omega

theorem item?_eq_none_iff :
    item? items position = none ↔ position < -items.length ∨ items.length ≤ position := by
  constructor
  · intro hnone
    by_contra hinside
    obtain ⟨i, hlt, hposition⟩ : ∃ i : Nat, i < items.length ∧
        (position = i ∨ position = (i : Int) - items.length) := by
      by_cases hsign : 0 ≤ position
      · exact ⟨position.toNat, by omega, by omega⟩
      · exact ⟨(position + items.length).toNat, by omega, by omega⟩
    rw [item?, index?_eq_some_iff.2 ⟨hlt, hposition⟩, Option.bind_some,
      List.getElem?_eq_getElem hlt] at hnone
    cases hnone
  · intro houtside
    refine Option.eq_none_iff_forall_ne_some.2 fun a ha => ?_
    obtain ⟨before, after, rfl, hposition⟩ := item?_eq_some_iff.1 ha
    simp only [List.length_append, List.length_cons] at houtside
    omega

end Slice

namespace NameSource

variable {place : Place} {source : NameSource} {items : List Place} {number : Int}
  {found : Option Place} {error : Error}

/-- The item of a list that a number names, from the front or from the back; a number behind the
last item names none. -/
inductive Numbered (items : List Place) : Int → Option Place → Prop
  | front {before after : List Place} {place : Place} (h : items = before ++ place :: after) :
    Numbered items before.length (some place)
  | back {before after : List Place} {place : Place} (h : items = before ++ place :: after) :
    Numbered items (-(after.length + 1)) (some place)
  | beyond {number : Int} (h : items.length ≤ number) : Numbered items number none

theorem pick_of_split {before after : List Place} (hitems : items = before ++ place :: after)
    (hnumber : number = before.length ∨ number = -(after.length + 1)) :
    pick items number = .ok (some place) := by
  have hlt : number < items.length := by
    rw [hitems, List.length_append, List.length_cons]
    omega
  rw [pick, if_pos hlt, Slice.item?_eq_some_iff.2 ⟨before, after, hitems, hnumber⟩]

theorem pick_eq_ok_iff : pick items number = .ok found ↔ Numbered items number found := by
  constructor
  · intro h
    unfold pick at h
    split at h
    next hlt =>
      split at h
      next place hitem =>
        cases h
        obtain ⟨before, after, hitems, rfl | rfl⟩ := Slice.item?_eq_some_iff.1 hitem
        · exact .front hitems
        · exact .back hitems
      next => cases h
    next hbeyond =>
      cases h
      exact .beyond (by omega)
  · intro h
    cases h with
    | front hitems => exact pick_of_split hitems (.inl rfl)
    | back hitems => exact pick_of_split hitems (.inr rfl)
    | beyond hbeyond => exact if_neg (by omega)

theorem pick_eq_error_iff :
    pick items number = .error error ↔ number < -items.length ∧ error = .outOfRange := by
  unfold pick
  split
  next hlt =>
    cases hitem : Slice.item? items number with
    | some place =>
      have hinside : ¬number < -items.length := fun hbefore => by
        cases hitem.symm.trans (Slice.item?_eq_none_iff.2 (.inl hbefore))
      simp [hinside]
    | none =>
      have hbefore : number < -items.length := by
        have houtside := Slice.item?_eq_none_iff.1 hitem
        omega
      simp [hbefore, eq_comm]
  next hbeyond =>
    have hinside : ¬number < -items.length := by omega
    simp [hinside]

/-- The child that a source names below a node. -/
inductive Finds (place : Place) : NameSource → Option Place → Prop
  | field (name : String) : Finds place (.field (.text name)) (place.childAt? name)
  | unset : Finds place (.field .null) none
  | child {number : Int} {found : Option Place} (h : Numbered place.children number found) :
    Finds place (.child number) found
  | namedChild {number : Int} {found : Option Place}
    (h : Numbered place.namedChildren number found) : Finds place (.namedChild number) found

/-- A source can be followed from a node: a field is given by a text, if at all, and a number counts
back no further than to the first child. -/
def Reaches (place : Place) : NameSource → Prop
  | .field (.text _) => True
  | .field .null => True
  | .field _ => False
  | .child number => -place.children.length ≤ number
  | .namedChild number => -place.namedChildren.length ≤ number

/-- What goes wrong if a source cannot be followed. -/
def fault : NameSource → Error
  | .field _ => .wrongKind
  | .child _ => .outOfRange
  | .namedChild _ => .outOfRange

theorem find_eq_ok_iff : find place source = .ok found ↔ Finds place source found := by
  constructor
  · intro h
    match source with
    | .child number => exact .child (pick_eq_ok_iff.1 h)
    | .namedChild number => exact .namedChild (pick_eq_ok_iff.1 h)
    | .field (.text name) =>
      cases h
      exact .field name
    | .field .null =>
      cases h
      exact .unset
  · intro h
    cases h with
    | field name => rfl
    | unset => rfl
    | child hnumbered => exact pick_eq_ok_iff.2 hnumbered
    | namedChild hnumbered => exact pick_eq_ok_iff.2 hnumbered

theorem find_eq_error_iff :
    find place source = .error error ↔ ¬source.Reaches place ∧ error = source.fault := by
  cases source with
  | child number => simp only [find, pick_eq_error_iff, Reaches, fault, Int.not_le]
  | namedChild number => simp only [find, pick_eq_error_iff, Reaches, fault, Int.not_le]
  | field name => cases name <;> simp [find, Reaches, fault, eq_comm]

theorem find_succeeds_iff : (∃ found, find place source = .ok found) ↔ source.Reaches place := by
  cases hfind : find place source with
  | ok found =>
    have hreaches : source.Reaches place := by
      by_contra hno
      cases hfind.symm.trans (find_eq_error_iff.2 ⟨hno, rfl⟩)
    simp [hreaches]
  | error error => simp [(find_eq_error_iff.1 hfind).1]

end NameSource

/-! ## Names of nodes -/

variable {doc : Document} {things : Table Category} {names : List (String × NameSource)}
  {place : Place}

namespace Thing

/-- The name of a node can be asked for: if the node is a definition, its name can be reached. -/
def Nameable (doc : Document) (things : Table Category) (names : List (String × NameSource))
    (place : Place) : Prop :=
  classify doc things place = .ok (some .definition) →
    (LanguageRules.nameSource names place.kind).Reaches place

theorem nameOf_other {found : Option Category} (h : classify doc things place = .ok found)
    (hother : found ≠ some .definition) : nameOf doc things names place = .ok none := by
  rw [nameOf, h]
  exact if_neg hother

theorem nameOf_definition (h : classify doc things place = .ok (some .definition)) :
    nameOf doc things names place = definitionName doc names place := by
  rw [nameOf, h]
  rfl

theorem definitionName_eq_ok {found : Option Place}
    (h : NameSource.Finds place (LanguageRules.nameSource names place.kind) found) :
    definitionName doc names place = .ok (found.map doc.textOf) := by
  rw [definitionName, NameSource.find_eq_ok_iff.2 h]
  rfl

theorem definitionName_eq_error
    (h : ¬(LanguageRules.nameSource names place.kind).Reaches place) :
    definitionName doc names place =
      .error (LanguageRules.nameSource names place.kind).fault := by
  rw [definitionName, NameSource.find_eq_error_iff.2 ⟨h, rfl⟩]
  rfl

theorem definitionName_succeeds_iff : (∃ name, definitionName doc names place = .ok name) ↔
    (LanguageRules.nameSource names place.kind).Reaches place := by
  rw [← NameSource.find_succeeds_iff]
  constructor
  · rintro ⟨name, hname⟩
    obtain ⟨found, hfound, -⟩ := Outcome.map_eq_ok.1 hname
    exact ⟨found, hfound⟩
  · rintro ⟨found, hfound⟩
    exact ⟨_, definitionName_eq_ok (NameSource.find_eq_ok_iff.1 hfound)⟩

theorem nameOf_succeeds_iff {found : Option Category}
    (h : classify doc things place = .ok found) :
    (∃ name, nameOf doc things names place = .ok name) ↔ Nameable doc things names place := by
  by_cases hdefinition : found = some .definition
  · subst hdefinition
    rw [nameOf_definition h, definitionName_succeeds_iff, Nameable, h]
    simp
  · have hother : classify doc things place ≠ .ok (some .definition) := by
      rw [h]
      exact fun hsame => hdefinition (Except.ok.inj hsame)
    rw [nameOf_other h hdefinition]
    simp [Nameable, hother]

end Thing

/-! ## Outlines -/

namespace Outline

variable {wanted : List Category}

theorem entryOf_succeeds_iff {found : Option Category}
    (h : Thing.classify doc things place = .ok found) :
    (∃ made, entryOf doc names wanted place found = .ok made) ↔
      (.definition ∈ wanted → Thing.Nameable doc things names place) := by
  by_cases hasked : found = some .definition ∧ .definition ∈ wanted
  · obtain ⟨rfl, hwanted⟩ := hasked
    have hcontains : wanted.contains .definition = true := List.contains_iff_mem.2 hwanted
    rw [entryOf, if_pos hcontains, if_pos rfl]
    simp only [Outcome.bind_eq_ok, Outcome.pure_eq_ok, Thing.Nameable, h, hwanted, true_imp_iff,
      ← @Thing.definitionName_succeeds_iff doc names place]
    constructor
    · rintro ⟨_, name, hname, -⟩
      exact ⟨name, hname⟩
    · rintro ⟨name, hname⟩
      exact ⟨_, name, hname, rfl⟩
  · have hnameable : .definition ∈ wanted → Thing.Nameable doc things names place := by
      intro hwanted hclass
      exact absurd ⟨Except.ok.inj (h.symm.trans hclass), hwanted⟩ hasked
    refine iff_of_true ?_ hnameable
    cases found with
    | none => exact ⟨none, rfl⟩
    | some category =>
      by_cases hwanted : category ∈ wanted
      · have hcontains : wanted.contains category = true := List.contains_iff_mem.2 hwanted
        have hother : category ≠ .definition := by
          rintro rfl
          exact hasked ⟨rfl, hwanted⟩
        rw [entryOf, if_pos hcontains, if_neg hother]
        exact ⟨_, rfl⟩
      · refine ⟨none, entryOf_unwanted ?_⟩
        rintro _ ⟨rfl⟩
        exact hwanted

/-- A run over places goes through just if the names of all definitions that are wanted can be
reached. -/
theorem collect_succeeds_iff {places : List Place} {memory : Memory} {groups : Groups}
    (hmemory : memory.Faithful doc)
    (hplaces : ∀ place ∈ places, ∃ found, Thing.classify doc things place = .ok found) :
    (∃ result, collect doc things names wanted places memory groups = .ok result) ↔
      (.definition ∈ wanted → ∀ place ∈ places, Thing.Nameable doc things names place) := by
  induction places generalizing memory groups with
  | nil => simp [collect]
  | cons place rest ih =>
    obtain ⟨⟨found, hfound⟩, hrest⟩ := List.forall_mem_cons.1 hplaces
    obtain ⟨hclass, hfaithful⟩ := Thing.recallClassify_recalled things place hmemory
    rw [collect_cons_bind (hclass.trans hfound)]
    simp only [Outcome.bind_eq_ok, List.forall_mem_cons]
    constructor
    · rintro ⟨result, made, hmade, hrun⟩ hwanted
      exact ⟨(entryOf_succeeds_iff hfound).1 ⟨made, hmade⟩ hwanted,
        (ih hfaithful hrest).1 ⟨result, hrun⟩ hwanted⟩
    · intro hnameable
      obtain ⟨made, hmade⟩ := (entryOf_succeeds_iff hfound).2 fun hwanted => (hnameable hwanted).1
      obtain ⟨result, hrun⟩ := (ih hfaithful hrest).2 fun hwanted => (hnameable hwanted).2
      exact ⟨result, made, hmade, hrun⟩

theorem ofDocument_succeeds_iff (hfresh : doc.checkFresh = .ok ())
    (hplaces : ∀ place ∈ doc.tree.places, ∃ found, Thing.classify doc things place = .ok found) :
    (∃ groups, ofDocument doc things names wanted = .ok groups) ↔
      (.definition ∈ wanted →
        ∀ place ∈ doc.tree.places, Thing.Nameable doc things names place) := by
  rw [ofDocument, hfresh, Tree.walk_none]
  exact collect_succeeds_iff (Memory.faithful_nil doc) hplaces

end Outline

/-! ## Accepted rules -/

theorem Document.checkFresh_of_root (h : doc.checkNode doc.root = .ok ()) :
    doc.checkFresh = .ok () := by
  obtain ⟨hsame, hstop, -⟩ := checkNode_eq_ok_iff.1 h
  exact doc.checkFresh_eq_ok_iff.2 ⟨hsame, hstop⟩

theorem LanguageRules.Answered.classify_succeeds {rules : LanguageRules} (h : rules.Answered doc)
    (hnode : doc.checkNode place = .ok ()) :
    ∃ found, Thing.classify doc rules.things place = .ok found :=
  Thing.classify_succeeds hnode h.firstMatch (h.things _ (Target.placed_ofNode doc place))

theorem Thing.nameable_of_forward (hnames : ∀ entry ∈ names, entry.2.Forward) :
    Nameable doc things names place := by
  intro _
  exact definitionName_succeeds_iff.1 (definitionName_succeeds doc hnames place)

/-- With accepted rules, in a document whose nodes are all in order: a definition has the name that
its source finds, which is none if the child is not there, and a node that is no definition has
none; asking fails just for definitions from which the source cannot be followed. There is an
outline just if no such definition is wanted. If all numbers count from the front, every name can be
asked for, and there is an outline of any categories. -/
theorem Validity.check_naming {strict : Bool} {rules : LanguageRules}
    (hcheck : check doc.toolkit strict rules = .ok ())
    (hlanguage : rules.language = .text doc.language)
    (hnodes : ∀ place ∈ doc.tree.places, doc.checkNode place = .ok ()) :
    (∀ place ∈ doc.tree.places,
      (Thing.classify doc rules.things place ≠ .ok (some .definition) →
        Thing.nameOf doc rules.things rules.names place = .ok none) ∧
      (Thing.classify doc rules.things place = .ok (some .definition) →
        (∀ found, NameSource.Finds place (LanguageRules.nameSource rules.names place.kind) found →
          Thing.nameOf doc rules.things rules.names place = .ok (found.map doc.textOf)) ∧
        (¬(LanguageRules.nameSource rules.names place.kind).Reaches place →
          Thing.nameOf doc rules.things rules.names place =
            .error (LanguageRules.nameSource rules.names place.kind).fault))) ∧
    (∀ wanted, (∃ groups, Outline.ofDocument doc rules.things rules.names wanted = .ok groups) ↔
      (.definition ∈ wanted →
        ∀ place ∈ doc.tree.places, Thing.Nameable doc rules.things rules.names place)) ∧
    ((∀ entry ∈ rules.names, entry.2.Forward) →
      (∀ place ∈ doc.tree.places, ∃ name,
        Thing.nameOf doc rules.things rules.names place = .ok name) ∧
      ∀ wanted, ∃ groups, Outline.ofDocument doc rules.things rules.names wanted = .ok groups) := by
  have hanswered := check_answered hlanguage hcheck
  have hplaces : ∀ place ∈ doc.tree.places,
      ∃ found, Thing.classify doc rules.things place = .ok found :=
    fun place hplace => hanswered.classify_succeeds (hnodes place hplace)
  have hfresh := Document.checkFresh_of_root (hnodes doc.root doc.tree.root_mem_places)
  refine ⟨?_, fun wanted => Outline.ofDocument_succeeds_iff hfresh hplaces, ?_⟩
  · intro place hplace
    refine ⟨?_, ?_⟩
    · intro hother
      obtain ⟨found, hfound⟩ := hplaces place hplace
      refine Thing.nameOf_other hfound ?_
      rintro rfl
      exact hother hfound
    · intro hdefinition
      rw [Thing.nameOf_definition hdefinition]
      exact ⟨fun found => Thing.definitionName_eq_ok, Thing.definitionName_eq_error⟩
  · intro hforward
    refine ⟨?_, ?_⟩
    · intro place hplace
      obtain ⟨found, hfound⟩ := hplaces place hplace
      exact (Thing.nameOf_succeeds_iff hfound).2 (Thing.nameable_of_forward hforward)
    · intro wanted
      exact (Outline.ofDocument_succeeds_iff hfresh hplaces).2
        fun _ _ _ => Thing.nameable_of_forward hforward

/-! ### A list that is named by a word -/

namespace Outline

/-- All nodes are definitions, and one of the children of a list holds its name. -/
def listRules (number : Int) : LanguageRules where
  language := .text "lists"
  indent := { name := "lists indent" }
  things := { name := "lists things", rules := [⟨.always, .definition, .text "Nodes"⟩] }
  names := [("list", .child number)]

/-- The document in which these rules are written. -/
def listRuleset (number : Int) : Value :=
  Ruleset.Entry.document "lists" "lists" [] [] []
    [Ruleset.Entry.thing "Nodes" Ruleset.Entry.always .definition]
    [("list", .mapping [("child", .int number)])]

theorem ofDocument_listRuleset (number : Int) :
    LanguageRules.ofDocument (listRuleset number) "lists" = .ok (listRules number) := by
  cbv

theorem check_listRules (number : Int) :
    Validity.check listDocument.toolkit false (listRules number) = .ok () := by
  cbv

theorem check_naming_list :
    LanguageRules.ofDocument (listRuleset (-1)) "lists" = .ok (listRules (-1)) ∧
    Validity.check listDocument.toolkit false (listRules (-1)) = .ok () ∧
    (∀ place ∈ listDocument.tree.places, listDocument.checkNode place = .ok ()) ∧
    Thing.nameOf listDocument (listRules (-1)).things (listRules (-1)).names listDocument.root =
      .ok (some ['b']) := by
  have hnaming := Validity.check_naming (check_listRules (-1)) rfl checkNode_list
  have hdefinition : Thing.classify listDocument (listRules (-1)).things listDocument.root =
      .ok (some .definition) := by cbv
  have hfinds : NameSource.Finds listDocument.root (.child (-1))
      (some ⟨.node ⟨2, "word", 2, 3, true, none, false⟩ [], [listTree]⟩) :=
    .child (@NameSource.Numbered.back _
      [⟨.node ⟨1, "word", 0, 1, true, none, false⟩ [], [listTree]⟩] [] _ rfl)
  refine ⟨ofDocument_listRuleset (-1), check_listRules (-1), checkNode_list, ?_⟩
  exact ((hnaming.1 _ listDocument.tree.root_mem_places).2 hdefinition).1 _ hfinds

/-- A number that counts back too far is accepted, and then neither the name nor the outline can be
had. -/
theorem nameOf_list_before :
    LanguageRules.ofDocument (listRuleset (-3)) "lists" = .ok (listRules (-3)) ∧
    Validity.check listDocument.toolkit false (listRules (-3)) = .ok () ∧
    (∀ place ∈ listDocument.tree.places, listDocument.checkNode place = .ok ()) ∧
    Thing.nameOf listDocument (listRules (-3)).things (listRules (-3)).names listDocument.root =
      .error .outOfRange ∧
    ofDocument listDocument (listRules (-3)).things (listRules (-3)).names =
      .error .outOfRange := by
  refine ⟨ofDocument_listRuleset (-3), check_listRules (-3), checkNode_list, ?_, ?_⟩
  · cbv
  · cbv

end Outline

end TreeRules
