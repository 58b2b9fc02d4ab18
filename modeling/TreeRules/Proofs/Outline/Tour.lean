import Mathlib
import TreeRules.Proofs.Outline.Agreement
import TreeRules.Proofs.Tree.Order

/-! # Tours through the things of a document

Where trees are in order and no predicate fails, a move forward finds the thing with the next start
and a move back the one with the last start before, both the outermost if several things start
together. So the moves forward from a byte on come by every start of a thing just once and end, and
the moves back undo them.
-/
namespace TreeRules

theorem Document.checkNode_eq_ok_iff {doc : Document} {place : Place} :
    doc.checkNode place = .ok () ↔
      place.node.label.changed = false ∧ place.stop ≤ doc.source.size ∧
        place.start ≤ place.stop := by
  unfold checkNode
  cases place.node.label.changed with
  | true => simp
  | false =>
    by_cases hspan : doc.source.size < place.stop ∨ place.stop < place.start
    · simp only [Bool.false_eq_true, if_false, if_pos hspan]
      constructor
      · intro h
        cases h
      · intro h
        omega
    · simp only [Bool.false_eq_true, if_false, if_neg hspan]
      simp
      omega

theorem Source.checkByte_natCast {source : Source} {byte : Nat} (h : byte ≤ source.size) :
    source.checkByte byte = .ok () := by
  have hinside : (0 : Int) ≤ byte ∧ (byte : Int) ≤ source.size := by omega
  rw [checkByte, if_pos hinside]

namespace Thing

variable {doc : Document} {things : Table Category} {category : Category}

/-- The tree is in order and without empty nodes, every node is in order, and every node has a
category or none. -/
structure Walkable (doc : Document) (things : Table Category) : Prop where
  arranged : doc.tree.Arranged
  filled : doc.tree.Filled
  checked : ∀ place ∈ doc.tree.places, doc.checkNode place = .ok ()
  single : things.accumulating = false
  decided : ∀ place ∈ doc.tree.places, Rule.Decided doc (Target.ofNode doc place) things.rules

/-- A thing of a category that is above all others with the same start. -/
structure Outermost (doc : Document) (things : Table Category) (category : Category)
    (place : Place) : Prop where
  mem : place ∈ doc.tree.places
  belongs : isA doc things category place = .ok true
  above : ∀ other ∈ doc.tree.places, isA doc things category other = .ok true →
    other.start = place.start → place ∈ other.upwards

theorem Outermost.eq_of_start_eq {place other : Place} (h : Outermost doc things category place)
    (hother : Outermost doc things category other) (hstart : place.start = other.start) :
    place = other := by
  have hup := h.above other hother.mem hother.belongs hstart.symm
  have hdown := hother.above place h.mem h.belongs hstart
  exact Place.mem_upwards_antisymm hup hdown

namespace Walkable

theorem isA_succeeds (h : Walkable doc things) (category : Category) {place : Place}
    (hplace : place ∈ doc.tree.places) : ∃ answer, isA doc things category place = .ok answer := by
  obtain ⟨found, hfound⟩ :=
    classify_succeeds (h.checked place hplace) h.single (h.decided place hplace)
  refine ⟨found.any (·.belongsTo category), ?_⟩
  rw [isA, hfound]
  rfl

theorem start_lt_size (h : Walkable doc things) {place : Place} (hplace : place ∈ doc.tree.places) :
    place.start < doc.source.size := by
  have hnonempty := h.filled place hplace
  have hinside := Document.checkNode_eq_ok_iff.1 (h.checked place hplace)
  omega

theorem checkByte_start (h : Walkable doc things) {place : Place}
    (hplace : place ∈ doc.tree.places) : doc.source.checkByte place.start = .ok () :=
  Source.checkByte_natCast (Nat.le_of_lt (h.start_lt_size hplace))

end Walkable

/-! ## The search forward -/

/-- Of places that stand in an order, a search finds the first thing by that order. -/
theorem first_pairwise {R : Place → Place → Prop} (hself : ∀ place, R place place)
    {places : List Place} (hsorted : places.Pairwise R)
    (hdecided : ∀ place ∈ places, ∃ answer, isA doc things category place = .ok answer) :
    (first doc things category places = .ok none ∧
        ∀ place ∈ places, isA doc things category place = .ok false) ∨
      ∃ place ∈ places, first doc things category places = .ok (some place) ∧
        isA doc things category place = .ok true ∧
        ∀ other ∈ places, isA doc things category other = .ok true → R place other := by
  induction places with
  | nil => exact .inl ⟨rfl, nofun⟩
  | cons head rest ih =>
    obtain ⟨hhead, hsorted⟩ := List.pairwise_cons.1 hsorted
    obtain ⟨⟨answer, hanswer⟩, hdecided⟩ := List.forall_mem_cons.1 hdecided
    cases answer with
    | true =>
      refine .inr ⟨head, List.mem_cons_self, ?_, hanswer, ?_⟩
      · rw [first, hanswer]
        rfl
      · exact List.forall_mem_cons.2
          ⟨fun _ => hself head, fun other hother _ => hhead other hother⟩
    | false =>
      have hstep : first doc things category (head :: rest) = first doc things category rest := by
        rw [first, hanswer]
        rfl
      rw [hstep]
      rcases ih hsorted hdecided with ⟨hnone, hall⟩ | ⟨place, hmem, hfound, hbelongs, hall⟩
      · exact .inl ⟨hnone, List.forall_mem_cons.2 ⟨hanswer, hall⟩⟩
      · refine .inr ⟨place, List.mem_cons_of_mem _ hmem, hfound, hbelongs, ?_⟩
        refine List.forall_mem_cons.2 ⟨fun hthing => ?_, hall⟩
        cases hanswer.symm.trans hthing

namespace Walkable

theorem first_filter (h : Walkable doc things) (category : Category) (keep : Place → Bool) :
    (first doc things category (doc.tree.places.filter keep) = .ok none ∧
        ∀ place ∈ doc.tree.places, keep place = true →
          isA doc things category place = .ok false) ∨
      ∃ place ∈ doc.tree.places, keep place = true ∧
        first doc things category (doc.tree.places.filter keep) = .ok (some place) ∧
        isA doc things category place = .ok true ∧
        ∀ other ∈ doc.tree.places, keep other = true →
          isA doc things category other = .ok true → place.Heads other := by
  have hsorted := (h.arranged.heads h.filled).filter keep
  have hdecided : ∀ place ∈ doc.tree.places.filter keep,
      ∃ answer, isA doc things category place = .ok answer :=
    fun place hplace => h.isA_succeeds category (List.mem_filter.1 hplace).1
  rcases first_pairwise Place.heads_self hsorted hdecided with
    ⟨hnone, hall⟩ | ⟨place, hmem, hfound, hbelongs, hall⟩
  · exact .inl ⟨hnone, fun place hplace hkeep => hall place (List.mem_filter.2 ⟨hplace, hkeep⟩)⟩
  · obtain ⟨hplace, hkeep⟩ := List.mem_filter.1 hmem
    exact .inr ⟨place, hplace, hkeep, hfound, hbelongs,
      fun other hother hkept => hall other (List.mem_filter.2 ⟨hother, hkept⟩)⟩

theorem exists_outermost (h : Walkable doc things) {place : Place}
    (hplace : place ∈ doc.tree.places) (hbelongs : isA doc things category place = .ok true) :
    ∃ top, Outermost doc things category top ∧ top.start = place.start := by
  rcases h.first_filter category (fun other => other.start == place.start) with
    ⟨-, hall⟩ | ⟨top, hmem, hkeep, -, htop, hall⟩
  · cases (hall place hplace (beq_self_eq_true _)).symm.trans hbelongs
  · have hstart : top.start = place.start := beq_iff_eq.1 hkeep
    refine ⟨top, ⟨hmem, htop, ?_⟩, hstart⟩
    intro other hother hthing hsame
    have hkept : (other.start == place.start) = true := beq_iff_eq.2 (hsame.trans hstart)
    exact (hall other hother hkept hthing).2 hsame.symm

variable {byte : Int}

/-- A move forward finds the outermost thing with the next start. -/
theorem next_cases (h : Walkable doc things) (category : Category)
    (hbyte : doc.source.checkByte byte = .ok ()) :
    (next doc things byte category = .ok none ∧
        ∀ place ∈ doc.tree.places, isA doc things category place = .ok true →
          (place.start : Int) ≤ byte) ∨
      ∃ place, next doc things byte category = .ok (some place) ∧
        Outermost doc things category place ∧ byte < (place.start : Int) ∧
        ∀ other ∈ doc.tree.places, isA doc things category other = .ok true →
          byte < (other.start : Int) → place.start ≤ other.start := by
  have hnext : next doc things byte category = first doc things category
      (doc.tree.places.filter fun place => byte < (place.start : Int)) := by
    rw [next, hbyte]
    rfl
  rw [hnext]
  rcases h.first_filter category (fun place => byte < (place.start : Int)) with
    ⟨hnone, hall⟩ | ⟨place, hmem, hkeep, hfound, hbelongs, hall⟩
  · refine .inl ⟨hnone, ?_⟩
    intro place hplace hthing
    by_contra hafter
    have hfalse := hall place hplace (decide_eq_true (Int.not_le.1 hafter))
    cases hfalse.symm.trans hthing
  · have hafter : byte < (place.start : Int) := of_decide_eq_true hkeep
    refine .inr ⟨place, hfound, ⟨hmem, hbelongs, ?_⟩, hafter, ?_⟩
    · intro other hother hthing hsame
      have hkept : byte < (other.start : Int) := by omega
      exact (hall other hother (decide_eq_true hkept) hthing).2 hsame.symm
    · intro other hother hthing hkept
      exact (hall other hother (decide_eq_true hkept) hthing).1

theorem of_next_none (h : Walkable doc things) (hbyte : doc.source.checkByte byte = .ok ())
    (hnext : next doc things byte category = .ok none) :
    ∀ place ∈ doc.tree.places, isA doc things category place = .ok true →
      (place.start : Int) ≤ byte := by
  rcases h.next_cases category hbyte with ⟨-, hall⟩ | ⟨place, hplace, -⟩
  · exact hall
  · cases hnext.symm.trans hplace

theorem of_next_some (h : Walkable doc things) (hbyte : doc.source.checkByte byte = .ok ())
    {place : Place} (hnext : next doc things byte category = .ok (some place)) :
    Outermost doc things category place ∧ byte < (place.start : Int) ∧
      ∀ other ∈ doc.tree.places, isA doc things category other = .ok true →
        byte < (other.start : Int) → place.start ≤ other.start := by
  rcases h.next_cases category hbyte with ⟨hnone, -⟩ | ⟨found, hfound, hall⟩
  · cases hnext.symm.trans hnone
  · cases hnext.symm.trans hfound
    exact hall

end Walkable

/-! ## The search back -/

/-- What was found among the places seen so far: of the things with the greatest start the one above
the others. -/
def Latest (doc : Document) (things : Table Category) (category : Category) (seen : List Place) :
    Option Place → Prop
  | none => ∀ place ∈ seen, isA doc things category place ≠ .ok true
  | some found => found ∈ seen ∧ isA doc things category found = .ok true ∧
      ∀ place ∈ seen, isA doc things category place = .ok true →
        place.start ≤ found.start ∧ (place.start = found.start → found ∈ place.upwards)

namespace Latest

variable {seen : List Place} {found : Option Place} {place : Place}

theorem skip (h : Latest doc things category seen found)
    (hheads : ∀ earlier ∈ seen, earlier.Heads place)
    (hpassed : (found.any fun found => place.start ≤ found.start) = true) :
    Latest doc things category (seen ++ [place]) found := by
  cases found with
  | none => cases hpassed
  | some found =>
    obtain ⟨hmem, hbelongs, hall⟩ := h
    -- The place was not looked at: it starts with the one found, which is then above it.
    have hle : place.start ≤ found.start := of_decide_eq_true hpassed
    have hup := hheads found hmem
    refine ⟨List.mem_append_left _ hmem, hbelongs, ?_⟩
    intro other hother hthing
    rcases List.mem_append.1 hother with hother | hother
    · exact hall other hother hthing
    · obtain rfl := List.mem_singleton.1 hother
      exact ⟨hle, fun hsame => hup.2 hsame.symm⟩

theorem keep (h : Latest doc things category seen found)
    (hplace : isA doc things category place = .ok false) :
    Latest doc things category (seen ++ [place]) found := by
  have hnot : isA doc things category place ≠ .ok true := by
    rw [hplace]
    exact nofun
  cases found with
  | none => exact List.forall_mem_append.2 ⟨h, List.forall_mem_singleton.2 hnot⟩
  | some found =>
    obtain ⟨hmem, hbelongs, hall⟩ := h
    refine ⟨List.mem_append_left _ hmem, hbelongs, List.forall_mem_append.2 ⟨hall, ?_⟩⟩
    exact List.forall_mem_singleton.2 fun hthing => absurd hthing hnot

theorem take (h : Latest doc things category seen found)
    (hplace : isA doc things category place = .ok true)
    (hlater : (found.any fun found => place.start ≤ found.start) = false) :
    Latest doc things category (seen ++ [place]) (some place) := by
  refine ⟨List.mem_append_right _ List.mem_cons_self, hplace, ?_⟩
  intro other hother hthing
  rcases List.mem_append.1 hother with hother | hother
  · cases found with
    | none => exact absurd hthing (h other hother)
    | some found =>
      have hgt : ¬place.start ≤ found.start := of_decide_eq_false hlater
      have hle := (h.2.2 other hother hthing).1
      exact ⟨by omega, fun hsame => by omega⟩
  · obtain rfl := List.mem_singleton.1 hother
    exact ⟨le_rfl, fun _ => other.self_mem_upwards⟩

end Latest

theorem last_latest {seen places : List Place} {found : Option Place}
    (h : Latest doc things category seen found)
    (hsorted : (seen ++ places).Pairwise Place.Heads)
    (hdecided : ∀ place ∈ places, ∃ answer, isA doc things category place = .ok answer) :
    ∃ result, last doc things category places found = .ok result ∧
      Latest doc things category (seen ++ places) result := by
  induction places generalizing seen found with
  | nil =>
    rw [List.append_nil]
    exact ⟨found, rfl, h⟩
  | cons place rest ih =>
    have hheads : ∀ earlier ∈ seen, earlier.Heads place :=
      fun earlier hearlier => (List.pairwise_append.1 hsorted).2.2 earlier hearlier place
        List.mem_cons_self
    obtain ⟨⟨answer, hanswer⟩, hdecided⟩ := List.forall_mem_cons.1 hdecided
    rw [List.append_cons] at hsorted ⊢
    rw [last]
    cases hpassed : found.any fun found => place.start ≤ found.start with
    | true => exact ih (h.skip hheads hpassed) hsorted hdecided
    | false =>
      rw [hanswer]
      cases answer with
      | true => exact ih (h.take hanswer hpassed) hsorted hdecided
      | false => exact ih (h.keep hanswer) hsorted hdecided

namespace Walkable

variable {byte : Int}

/-- A move back finds the outermost thing with the last start before a byte. -/
theorem previous_eq (h : Walkable doc things) {place : Place}
    (hplace : Outermost doc things category place) (hbyte : doc.source.checkByte byte = .ok ())
    (hbefore : (place.start : Int) < byte)
    (hlast : ∀ other ∈ doc.tree.places, isA doc things category other = .ok true →
      (other.start : Int) < byte → other.start ≤ place.start) :
    previous doc things byte category = .ok (some place) := by
  have hsorted := (h.arranged.heads h.filled).filter fun place => (place.start : Int) < byte
  have hdecided : ∀ place ∈ doc.tree.places.filter (fun place => (place.start : Int) < byte),
      ∃ answer, isA doc things category place = .ok answer :=
    fun place hplace => h.isA_succeeds category (List.mem_filter.1 hplace).1
  have hnothing : Latest doc things category [] none := nofun
  obtain ⟨result, hresult, hlatest⟩ := last_latest hnothing hsorted hdecided
  have hseen : place ∈ doc.tree.places.filter (fun place => (place.start : Int) < byte) :=
    List.mem_filter.2 ⟨hplace.mem, decide_eq_true hbefore⟩
  rw [List.nil_append] at hlatest
  rw [previous, hbyte]
  refine hresult.trans ?_
  cases result with
  | none => exact absurd hplace.belongs (hlatest place hseen)
  | some found =>
    obtain ⟨hfound, hbelongs, hall⟩ := hlatest
    obtain ⟨hmem, hkeep⟩ := List.mem_filter.1 hfound
    have hle := hlast found hmem hbelongs (of_decide_eq_true hkeep)
    obtain ⟨hge, hup⟩ := hall place hseen hplace.belongs
    have hsame : place.start = found.start := by omega
    have habove := hplace.above found hmem hbelongs hsame.symm
    rw [Place.mem_upwards_antisymm habove (hup hsame)]

end Walkable

/-! ## Tours -/

/-- The things that are found by moving forward from a byte on, from each to the next, until there
is none. -/
inductive Tour (doc : Document) (things : Table Category) (category : Category) :
    Int → List Place → Prop
  | ends {byte : Int} (h : next doc things byte category = .ok none) :
    Tour doc things category byte []
  | moves {byte : Int} {place : Place} {rest : List Place}
    (h : next doc things byte category = .ok (some place))
    (hrest : Tour doc things category place.start rest) :
    Tour doc things category byte (place :: rest)

namespace Walkable

theorem exists_tour (h : Walkable doc things) (category : Category) {byte : Int}
    (hbyte : doc.source.checkByte byte = .ok ()) :
    ∃ visited, Tour doc things category byte visited := by
  rcases h.next_cases category hbyte with ⟨hnone, -⟩ | ⟨place, hplace, hthing, hafter, -⟩
  · exact ⟨[], .ends hnone⟩
  · -- Every move takes the tour further towards the end of the source.
    have hsize := h.start_lt_size hthing.mem
    obtain ⟨rest, hrest⟩ := h.exists_tour category (h.checkByte_start hthing.mem)
    exact ⟨place :: rest, .moves hplace hrest⟩
termination_by (doc.source.size - byte).toNat
decreasing_by omega

end Walkable

namespace Tour

variable {byte : Int} {visited : List Place}

/-- A tour comes by the outermost things that start after its byte, and by nothing else. -/
theorem mem_iff (htour : Tour doc things category byte visited) (h : Walkable doc things)
    (hbyte : doc.source.checkByte byte = .ok ()) (place : Place) :
    place ∈ visited ↔ Outermost doc things category place ∧ byte < (place.start : Int) := by
  induction htour with
  | ends hnone =>
    constructor
    · exact nofun
    · rintro ⟨hthing, hafter⟩
      have hle := h.of_next_none hbyte hnone place hthing.mem hthing.belongs
      omega
  | @moves byte found rest hnext _ ih =>
    obtain ⟨hfound, hafter, hall⟩ := h.of_next_some hbyte hnext
    rw [List.mem_cons, ih (h.checkByte_start hfound.mem)]
    constructor
    · rintro (rfl | ⟨hthing, hlater⟩)
      · exact ⟨hfound, hafter⟩
      · exact ⟨hthing, by omega⟩
    · rintro ⟨hthing, hlater⟩
      have hle := hall place hthing.mem hthing.belongs hlater
      by_cases hsame : place.start = found.start
      · exact .inl (hthing.eq_of_start_eq hfound hsame)
      · exact .inr ⟨hthing, by omega⟩

theorem increasing (htour : Tour doc things category byte visited) (h : Walkable doc things)
    (hbyte : doc.source.checkByte byte = .ok ()) :
    visited.Pairwise fun earlier later => earlier.start < later.start := by
  induction htour with
  | ends _ => exact List.Pairwise.nil
  | moves hnext hrest ih =>
    have hinside := h.checkByte_start (h.of_next_some hbyte hnext).1.mem
    refine List.pairwise_cons.2 ⟨?_, ih hinside⟩
    intro later hlater
    have hafter := ((hrest.mem_iff h hinside later).1 hlater).2
    omega

/-- A move back from a thing of a tour finds the thing before it. -/
theorem previous_chain (htour : Tour doc things category byte visited) (h : Walkable doc things)
    (hbyte : doc.source.checkByte byte = .ok ()) :
    visited.IsChain fun earlier later =>
      previous doc things later.start category = .ok (some earlier) := by
  induction htour with
  | ends _ => exact List.IsChain.nil
  | moves hnext hrest ih =>
    have hthing := (h.of_next_some hbyte hnext).1
    have hinside := h.checkByte_start hthing.mem
    have hchain := ih hinside
    cases hrest with
    | ends _ => exact List.IsChain.singleton _
    | moves hnext _ =>
      obtain ⟨hlater, hafter, hall⟩ := h.of_next_some hinside hnext
      refine List.IsChain.cons_cons ?_ hchain
      refine h.previous_eq hthing (h.checkByte_start hlater.mem) hafter ?_
      -- Nothing starts between the two, or the move forward would have found it.
      intro other hother hbelongs hbefore
      by_contra hbetween
      have hle := hall other hother hbelongs (by omega)
      omega

end Tour

/-- From a byte in the source the moves forward come to an end. They come by every later start of a
thing once, in order, and there by the outermost thing. The move back from behind the start of a
thing on the tour finds that thing, and the move back from its start the one before it. -/
theorem tour_complete {doc : Document} {things : Table Category} (h : Walkable doc things)
    (category : Category) {byte : Int} (hbyte : 0 ≤ byte ∧ byte ≤ doc.source.size) :
    ∃ visited, Tour doc things category byte visited ∧
      visited.Pairwise (fun earlier later => earlier.start < later.start) ∧
      (∀ place ∈ visited, Outermost doc things category place) ∧
      (∀ start : Nat, (∃ place ∈ visited, place.start = start) ↔
        byte < start ∧ ∃ place ∈ doc.tree.places,
          isA doc things category place = .ok true ∧ place.start = start) ∧
      (∀ place ∈ visited,
        previous doc things (place.start + 1) category = .ok (some place)) ∧
      visited.IsChain fun earlier later =>
        previous doc things later.start category = .ok (some earlier) := by
  have hinside : doc.source.checkByte byte = .ok () := by rw [Source.checkByte, if_pos hbyte]
  obtain ⟨visited, htour⟩ := h.exists_tour category hinside
  have hmem := htour.mem_iff h hinside
  refine ⟨visited, htour, htour.increasing h hinside, fun place hplace => ((hmem place).1 hplace).1,
    ?_, ?_, htour.previous_chain h hinside⟩
  · intro start
    constructor
    · rintro ⟨place, hplace, rfl⟩
      obtain ⟨hthing, hafter⟩ := (hmem place).1 hplace
      exact ⟨hafter, place, hthing.mem, hthing.belongs, rfl⟩
    · rintro ⟨hafter, place, hplace, hbelongs, rfl⟩
      obtain ⟨top, htop, hstart⟩ := h.exists_outermost hplace hbelongs
      exact ⟨top, (hmem top).2 ⟨htop, by omega⟩, hstart⟩
  · intro place hplace
    have hthing := ((hmem place).1 hplace).1
    have hsize := h.start_lt_size hthing.mem
    have hbehind := Source.checkByte_natCast (Nat.succ_le_of_lt hsize)
    rw [Nat.cast_succ] at hbehind
    exact h.previous_eq hthing hbehind (by omega) fun other _ _ hbefore => by omega

/-! ## A pair among words -/

def pairTree : Tree :=
  .node ⟨0, "list", 0, 7, true, none, false⟩
    [.node ⟨1, "word", 0, 1, true, none, false⟩ [],
      .node ⟨2, "pair", 2, 5, true, none, false⟩
        [.node ⟨3, "word", 2, 3, true, none, false⟩ [],
          .node ⟨4, "word", 4, 5, true, none, false⟩ []],
      .node ⟨5, "word", 6, 7, true, none, false⟩ []]

/-- The rows `x`, `a.b` and `c`. A pair starts together with its first word. -/
def pairDocument : Document where
  language := "pairs"
  source := Source.ofBytes [120, 10, 97, 46, 98, 10, 99]
  tree := pairTree
  captures _ _ := []
  toolkit := ⟨fun _ => .ok ⟨fun _ => true, fun _ => true⟩, fun _ _ => .ok []⟩

def pairThings : Table Category where
  rules := [⟨.not (.chain .any .absent .any), .expression, .null⟩]

def pairPlace : Place := (⟨pairTree, []⟩ : Place).children.getD 1 ⟨pairTree, []⟩

theorem walkable_pair : Walkable pairDocument pairThings where
  arranged := by decide
  filled := by decide
  checked := by
    have hchecked : ∀ place ∈ pairTree.places, place.node.label.changed = false ∧
        place.stop ≤ 7 ∧ place.start ≤ place.stop := by decide
    exact fun place hplace => Document.checkNode_eq_ok_iff.2 (hchecked place hplace)
  single := rfl
  decided := by
    intro place _ rule hrule
    obtain rfl := List.mem_singleton.1 hrule
    rw [Predicate.holds, Predicate.evaluate, Predicate.evaluate]
    exact ⟨_, rfl⟩

/-- The tour goes to the pair and not to the word with which it starts. -/
theorem tour_complete_pair : Walkable pairDocument pairThings ∧
    ∃ visited, Tour pairDocument pairThings .expression 0 visited ∧ pairPlace ∈ visited ∧
      previous pairDocument pairThings 3 .expression = .ok (some pairPlace) := by
  have hbyte : (0 : Int) ≤ 0 ∧ (0 : Int) ≤ pairDocument.source.size := by decide
  obtain ⟨visited, htour, -, houtermost, hstarts, hback, -⟩ :=
    tour_complete walkable_pair .expression hbyte
  have hplace : pairPlace ∈ pairDocument.tree.places :=
    List.mem_cons_of_mem _ (List.mem_cons_of_mem _ List.mem_cons_self)
  have hbelongs : isA pairDocument pairThings .expression pairPlace = .ok true := by cbv
  obtain ⟨place, hvisited, hstart⟩ := (hstarts 2).2 ⟨by decide, pairPlace, hplace, hbelongs, rfl⟩
  -- What the tour finds at this start is above the pair, and only the root is.
  have hup := (houtermost place hvisited).above pairPlace hplace hbelongs hstart.symm
  have hsame : place = pairPlace := by
    rcases List.mem_pair.1 hup with hsame | hroot
    · exact hsame
    · rw [hroot] at hstart
      cases hstart
  rw [hsame] at hvisited
  exact ⟨walkable_pair, visited, htour, hvisited, hback pairPlace hvisited⟩

end Thing

end TreeRules
