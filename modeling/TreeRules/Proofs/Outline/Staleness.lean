import Mathlib
import TreeRules.Highlight.Projection
import TreeRules.Indent.Line
import TreeRules.Outline.Entry
import TreeRules.Proofs.Tree.Order

/-! # Stale trees

Indentation, highlighting and the outline look at the whole tree first and refuse a stale one. The
motions from thing to thing look at nodes one by one. The root of a stale tree is refused like the
tree itself, so a motion fails where its search comes to the root, and else answers with a node
below it that is in order.
-/
namespace TreeRules

namespace Document

variable {doc : Document}

/-- The tree does not describe the source: it was changed, or it goes on behind its end. -/
def Stale (doc : Document) : Prop :=
  doc.tree.label.changed = true ∨ doc.source.size < doc.tree.stop

theorem Stale.checkFresh (h : doc.Stale) : ∃ fault, doc.checkFresh = .error (.tree fault) := by
  unfold Document.checkFresh
  split
  · exact ⟨_, rfl⟩
  next hsame =>
    have hstop := h.resolve_left hsame
    exact ⟨_, if_pos hstop⟩

theorem Stale.checkNode_root (h : doc.Stale) :
    ∃ fault, doc.checkNode doc.root = .error (.tree fault) := by
  unfold Document.checkNode
  split
  · exact ⟨_, rfl⟩
  next hsame =>
    have hstop := h.resolve_left hsame
    exact ⟨_, if_pos (.inl hstop)⟩

end Document

namespace Thing

variable {doc : Document} {things : Table Category} {category : Category}

theorem isA_of_checkNode_error {place : Place} {error : Error}
    (h : doc.checkNode place = .error error) : isA doc things category place = .error error := by
  rw [isA, classify, h]
  rfl

theorem checkNode_of_isA {place : Place} {answer : Bool}
    (h : isA doc things category place = .ok answer) : doc.checkNode place = .ok () := by
  obtain ⟨_, hclassify, -⟩ := Outcome.map_eq_ok.1 h
  obtain ⟨_, hcheck, -⟩ := Outcome.bind_eq_ok.1 hclassify
  exact hcheck

/-! ## Searches -/

theorem first_of_head_error {place : Place} {rest : List Place} {error : Error}
    (h : isA doc things category place = .error error) :
    first doc things category (place :: rest) = .error error := by
  rw [first, h]
  rfl

/-- What a search finds belongs to the category. -/
theorem isA_of_first {places : List Place} {place : Place}
    (h : first doc things category places = .ok (some place)) :
    isA doc things category place = .ok true := by
  induction places with
  | nil => cases h
  | cons head rest ih =>
    rw [first] at h
    obtain ⟨answer, hanswer, h⟩ := Outcome.bind_eq_ok.1 h
    cases answer with
    | true =>
      cases h
      exact hanswer
    | false => exact ih h

/-- A search that finds nothing has looked at every place. -/
theorem isA_of_first_none {places : List Place} (h : first doc things category places = .ok none) :
    ∀ place ∈ places, isA doc things category place = .ok false := by
  induction places with
  | nil => exact nofun
  | cons head rest ih =>
    rw [first] at h
    obtain ⟨answer, hanswer, h⟩ := Outcome.bind_eq_ok.1 h
    cases answer with
    | true => cases h
    | false => exact List.forall_mem_cons.2 ⟨hanswer, ih h⟩

theorem last_of_head_error {place : Place} {rest : List Place} {error : Error}
    (h : isA doc things category place = .error error) :
    last doc things category (place :: rest) none = .error error := by
  rw [last, h]
  rfl

theorem isA_of_last {places : List Place} {found : Option Place} {place : Place}
    (h : last doc things category places found = .ok (some place)) :
    found = some place ∨ isA doc things category place = .ok true := by
  induction places generalizing found with
  | nil =>
    cases h
    exact .inl rfl
  | cons head rest ih =>
    rw [last] at h
    split at h
    · exact ih h
    · obtain ⟨answer, hanswer, h⟩ := Outcome.bind_eq_ok.1 h
      cases answer with
      | true =>
        rcases ih h with heq | hplace
        · cases heq
          exact .inr hanswer
        · exact .inr hplace
      | false => exact ih h

/-! ## Motions -/

/-- A range check that fails is a fault of the tree as well. -/
theorem checkByte_cases (source : Source) (byte : Int) :
    source.checkByte byte = .ok () ∨ ∃ fault, source.checkByte byte = .error (.tree fault) := by
  unfold Source.checkByte
  split
  · exact .inl rfl
  · exact .inr ⟨_, rfl⟩

variable {byte : Int} {fault : TreeFault}

theorem next_of_root (hroot : doc.checkNode doc.root = .error (.tree fault))
    (hbyte : byte < doc.tree.start) :
    ∃ fault, next doc things byte category = .error (.tree fault) := by
  rcases checkByte_cases doc.source byte with hinside | ⟨outside, houtside⟩
  · obtain ⟨rest, hrest⟩ := doc.tree.places_eq_cons
    have hkept : decide (byte < ((⟨doc.tree, []⟩ : Place).start : Int)) = true :=
      decide_eq_true hbyte
    refine ⟨fault, ?_⟩
    rw [next, hinside, hrest, List.filter_cons, if_pos hkept]
    exact first_of_head_error (isA_of_checkNode_error hroot)
  · refine ⟨outside, ?_⟩
    rw [next, houtside]
    rfl

theorem previous_of_root (hroot : doc.checkNode doc.root = .error (.tree fault))
    (hbyte : doc.tree.start < byte) :
    ∃ fault, previous doc things byte category = .error (.tree fault) := by
  rcases checkByte_cases doc.source byte with hinside | ⟨outside, houtside⟩
  · obtain ⟨rest, hrest⟩ := doc.tree.places_eq_cons
    have hkept : decide (((⟨doc.tree, []⟩ : Place).start : Int) < byte) = true :=
      decide_eq_true hbyte
    refine ⟨fault, ?_⟩
    rw [previous, hinside, hrest, List.filter_cons, if_pos hkept]
    exact last_of_head_error (isA_of_checkNode_error hroot)
  · refine ⟨outside, ?_⟩
    rw [previous, houtside]
    rfl

theorem enclosing_ne_none (hroot : doc.checkNode doc.root = .error (.tree fault))
    (hblank : doc.source.isBlank = false) : enclosing doc things byte category ≠ .ok none := by
  intro h
  obtain ⟨_, -, h⟩ := Outcome.bind_eq_ok.1 h
  rw [Document.smallestAround, hblank] at h
  have hup := Tree.mem_upwards_of_mem_walkFrom (doc.tree.descend_mem_places byte)
  have hlooked := checkNode_of_isA (isA_of_first_none h _ hup)
  cases hroot.symm.trans hlooked

/-- What a motion answers with has been looked at. -/
theorem checkNode_of_motion {place : Place}
    (h : next doc things byte category = .ok (some place) ∨
      previous doc things byte category = .ok (some place) ∨
      enclosing doc things byte category = .ok (some place)) : doc.checkNode place = .ok () := by
  rcases h with h | h | h <;> obtain ⟨_, -, h⟩ := Outcome.bind_eq_ok.1 h
  · exact checkNode_of_isA (isA_of_first h)
  · rcases isA_of_last h with hnone | hplace
    · cases hnone
    · exact checkNode_of_isA hplace
  · split at h
    · exact checkNode_of_isA (isA_of_first h)
    · cases h

end Thing

/-- Indentation, highlighting and the outline refuse a stale tree, all for the same fault. A motion
refuses it where the root is among the places it looks at; what it answers with otherwise is a node
below the root that is in order. -/
theorem Document.Stale.refused {doc : Document} (h : doc.Stale) :
    (∃ fault, (∀ table unit row, Indentation.ofRow doc table unit row = .error (.tree fault)) ∧
      (∀ set enabled range, Highlight.project doc set enabled range = .error (.tree fault)) ∧
      ∀ things names wanted, Outline.ofDocument doc things names wanted = .error (.tree fault)) ∧
    ∀ things byte category,
      (byte < (doc.tree.start : Int) →
        ∃ fault, Thing.next doc things byte category = .error (.tree fault)) ∧
      ((doc.tree.start : Int) < byte →
        ∃ fault, Thing.previous doc things byte category = .error (.tree fault)) ∧
      (doc.source.isBlank = false → Thing.enclosing doc things byte category ≠ .ok none) ∧
      ∀ place, (Thing.next doc things byte category = .ok (some place) ∨
          Thing.previous doc things byte category = .ok (some place) ∨
          Thing.enclosing doc things byte category = .ok (some place)) →
        place ≠ doc.root ∧ doc.checkNode place = .ok () := by
  obtain ⟨fault, hfresh⟩ := h.checkFresh
  obtain ⟨rootFault, hroot⟩ := h.checkNode_root
  refine ⟨⟨fault, ?_, ?_, ?_⟩, fun things byte category =>
    ⟨Thing.next_of_root hroot, Thing.previous_of_root hroot, Thing.enclosing_ne_none hroot, ?_⟩⟩
  · intro table unit row
    rw [Indentation.ofRow, hfresh]
    rfl
  · intro set enabled range
    rw [Highlight.project, hfresh]
    rfl
  · intro things names wanted
    rw [Outline.ofDocument, hfresh]
    rfl
  · intro place hplace
    have hcheck := Thing.checkNode_of_motion hplace
    refine ⟨?_, hcheck⟩
    rintro rfl
    cases hroot.symm.trans hcheck

/-! ## An edited document -/

def editedTree : Tree :=
  .node ⟨0, "module", 0, 13, true, none, true⟩
    [.node ⟨1, "statement", 0, 6, true, none, true⟩ [],
      .node ⟨2, "statement", 7, 12, true, none, false⟩ []]

/-- The rows `xx = 1` and `y = 2` after the second letter was typed; the tree was not parsed
again. -/
def editedDocument : Document where
  language := "statements"
  source := Source.ofBytes [120, 120, 32, 61, 32, 49, 10, 121, 32, 61, 32, 50, 10]
  tree := editedTree
  captures _ _ := []
  toolkit := ⟨fun _ => .ok ⟨fun _ => true, fun _ => true⟩, fun _ _ => .ok []⟩

def editedThings : Table Category where
  rules := [⟨.not (.chain .any .absent .any), .statement, .null⟩]

theorem Document.Stale.refused_edited : editedDocument.Stale ∧
    ∃ fault, Thing.previous editedDocument editedThings 4 .statement = .error (.tree fault) := by
  have hstale : editedDocument.Stale := .inl rfl
  exact ⟨hstale, (hstale.refused.2 editedThings 4 .statement).2.1 (by decide)⟩

/-- A motion finds the second statement of the edited tree. -/
theorem Thing.next_edited : editedDocument.Stale ∧
    (next editedDocument editedThings 0 .statement).map (·.map Place.id) = .ok (some 2) := by
  refine ⟨.inl rfl, ?_⟩
  cbv

end TreeRules
