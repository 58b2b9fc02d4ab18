import Mathlib
import TreeRules.Outline.Entry
import TreeRules.Proofs.FirstMatch
import TreeRules.Proofs.Predicate.Recollection
import TreeRules.Proofs.Source.Rows
import TreeRules.Proofs.Tree.Places

/-! # Outlines and categories

An outline holds what can be found out node by node. Every wanted category has one entry for each of
its nodes, in the order of the tree, with the name that the node has and with the rows in which it
starts and stops; the categories come in the order of their first nodes. The traversal, the memory
that all nodes share and the groups that grow entry by entry do not show.
-/
namespace TreeRules

/-! ## Names that can be looked up -/

namespace NameSource

/-- A field is given by its name, if at all, and a child by a number counted from the front. -/
def Forward : NameSource → Prop
  | .field (.text _) => True
  | .field .null => True
  | .field _ => False
  | .child number => 0 ≤ number
  | .namedChild number => 0 ≤ number

theorem pick_succeeds {number : Int} (h : 0 ≤ number) (items : List Place) :
    ∃ found, pick items number = .ok found := by
  unfold pick
  split
  next hlt =>
    obtain ⟨n, rfl⟩ := Int.eq_ofNat_of_zero_le h
    have hn : n < items.length := Int.ofNat_lt.1 hlt
    rw [Slice.item?_natCast hn, List.getElem?_eq_getElem hn]
    exact ⟨_, rfl⟩
  next => exact ⟨none, rfl⟩

theorem find_succeeds {source : NameSource} (h : source.Forward) (place : Place) :
    ∃ found, find place source = .ok found := by
  match source with
  | .field (.text name) => exact ⟨_, rfl⟩
  | .field .null => exact ⟨none, rfl⟩
  | .child number => exact pick_succeeds h place.children
  | .namedChild number => exact pick_succeeds h place.namedChildren

end NameSource

variable {doc : Document} {things : Table Category} {names : List (String × NameSource)}

namespace Thing

theorem definitionName_succeeds (doc : Document) (hnames : ∀ entry ∈ names, entry.2.Forward)
    (place : Place) : ∃ name, definitionName doc names place = .ok name := by
  have hforward : (LanguageRules.nameSource names place.kind).Forward := by
    unfold LanguageRules.nameSource
    cases hlookup : names.lookup place.kind with
    | none => trivial
    | some source =>
      obtain ⟨front, back, hsplit, -⟩ := List.lookup_eq_some_iff.1 hlookup
      exact hnames (place.kind, source) (by simp [hsplit])
  obtain ⟨found, hfound⟩ := NameSource.find_succeeds hforward place
  refine ⟨found.map doc.textOf, ?_⟩
  rw [definitionName, hfound]
  rfl

theorem classify_succeeds {place : Place} (hnode : doc.checkNode place = .ok ())
    (hfirst : things.accumulating = false)
    (hdecided : Rule.Decided doc (Target.ofNode doc place) things.rules) :
    ∃ found, classify doc things place = .ok found := by
  obtain ⟨rule, hrule⟩ := Rule.first_succeeds hdecided
  refine ⟨rule.map (·.action), ?_⟩
  rw [classify, hnode, Table.resolve, hfirst, Table.ruleFor, hrule]
  rfl

/-- Whether a node has a category when it is looked at on its own. -/
def inCategory (doc : Document) (things : Table Category) (category : Category) (place : Place) :
    Bool :=
  match classify doc things place with
  | .ok found => found == some category
  | .error _ => false

theorem inCategory_eq {place : Place} {found : Option Category}
    (h : classify doc things place = .ok found) (category : Category) :
    inCategory doc things category place = (found == some category) := by
  rw [inCategory, h]

theorem inCategory_iff {category : Category} {place : Place} :
    inCategory doc things category place = true ↔
      classify doc things place = .ok (some category) := by
  unfold inCategory
  cases classify doc things place with
  | error error => simp
  | ok found => simp

end Thing

namespace Outline

/-! ## Groups -/

theorem keys_insert (entry : Entry) (groups : Groups) :
    (insert entry groups).map Prod.fst =
      if entry.category ∈ groups.map Prod.fst then groups.map Prod.fst
      else groups.map Prod.fst ++ [entry.category] := by
  induction groups with
  | nil => simp [insert]
  | cons group rest ih =>
    obtain ⟨category, entries⟩ := group
    by_cases hsame : category = entry.category
    · simp [insert, hsame]
    · have hother : ¬entry.category = category := fun h => hsame h.symm
      simp only [insert, if_neg hsame, List.map_cons, ih, List.mem_cons, hother, false_or]
      split
      · rfl
      · rfl

theorem mem_keys_insert {entry : Entry} {groups : Groups} {category : Category} :
    category ∈ (insert entry groups).map Prod.fst ↔
      category ∈ groups.map Prod.fst ∨ category = entry.category := by
  rw [keys_insert]
  split
  next hold =>
    refine (or_iff_left_of_imp ?_).symm
    rintro rfl
    exact hold
  next => rw [List.mem_append, List.mem_singleton]

theorem lookup_insert (entry : Entry) (groups : Groups) (category : Category) :
    (insert entry groups).lookup category =
      if category = entry.category then some ((groups.lookup category).getD [] ++ [entry])
      else groups.lookup category := by
  induction groups with
  | nil =>
    by_cases hnew : category = entry.category
    · simp [insert, hnew]
    · have hother : (category == entry.category) = false := by simp [hnew]
      simp [insert, List.lookup_cons, hnew, hother]
  | cons group rest ih =>
    obtain ⟨key, entries⟩ := group
    by_cases hkey : category = key
    · subst hkey
      by_cases hsame : category = entry.category
      · simp [insert, hsame]
      · simp [insert, hsame]
    · have hmiss : (category == key) = false := by simp [hkey]
      by_cases hsame : key = entry.category
      · subst hsame
        simp [insert, List.lookup_cons, hmiss, hkey]
      · simp [insert, hsame, List.lookup_cons, hmiss, ih]

/-! ## One entry -/

/-- An entry says of a node what can be asked about it. -/
structure Describes (doc : Document) (things : Table Category) (names : List (String × NameSource))
    (category : Category) (place : Place) (entry : Entry) : Prop where
  name : (Thing.nameOf doc things names place).map (·.map String.ofList) = .ok entry.name
  unnamed : category ≠ .definition → entry.name = none
  kind : entry.kind = place.kind
  start : entry.start = place.start
  stop : entry.stop = place.stop
  firstLine : entry.firstLine = doc.source.rowOf place.start + 1
  lastLine : entry.lastLine = doc.source.rowOf place.stop + 1
  category : entry.category = category

variable {wanted : List Category} {place : Place}

theorem describes_ofPlace {category : Category} {name : Option (List Char)}
    (hname : Thing.nameOf doc things names place = .ok name)
    (hunnamed : category ≠ .definition → name = none) :
    Describes doc things names category place (Entry.ofPlace doc category name place) where
  name := by
    rw [hname]
    rfl
  unnamed hother := by
    rw [hunnamed hother]
    rfl
  kind := rfl
  start := rfl
  stop := rfl
  -- The line feeds in front of a byte are as many as the rows that a search finds before it.
  firstLine := by
    rw [Source.rowOf_natCast]
    rfl
  lastLine := by
    rw [Source.rowOf_natCast]
    rfl
  category := rfl

theorem entryOf_describes {category : Category} (hnames : ∀ entry ∈ names, entry.2.Forward)
    (hclass : Thing.classify doc things place = .ok (some category)) (hwanted : category ∈ wanted) :
    ∃ entry, entryOf doc names wanted place (some category) = .ok (some entry) ∧
      Describes doc things names category place entry := by
  have hcontains : wanted.contains category = true := List.contains_iff_mem.2 hwanted
  obtain ⟨name, hname⟩ := Thing.definitionName_succeeds doc hnames place
  by_cases hdefinition : category = .definition
  · subst hdefinition
    have hnode : Thing.nameOf doc things names place = .ok name := by
      rw [Thing.nameOf, hclass, ← hname]
      rfl
    have hnamed : Category.definition ≠ .definition → name = none := fun hne => absurd rfl hne
    refine ⟨Entry.ofPlace doc .definition name place, ?_, describes_ofPlace hnode hnamed⟩
    rw [entryOf, if_pos hcontains, if_pos rfl, hname]
    rfl
  · have hnode : Thing.nameOf doc things names place = .ok none := by
      rw [Thing.nameOf, hclass]
      exact if_neg fun h => hdefinition (Option.some.inj h)
    refine ⟨Entry.ofPlace doc category none place, ?_, describes_ofPlace hnode fun _ => rfl⟩
    rw [entryOf, if_pos hcontains, if_neg hdefinition]
    rfl

theorem entryOf_unwanted {found : Option Category}
    (h : ∀ category, found = some category → category ∉ wanted) :
    entryOf doc names wanted place found = .ok none := by
  cases found with
  | none => rfl
  | some category =>
    have hcontains : ¬wanted.contains category = true := by
      rw [List.contains_iff_mem]
      exact h category rfl
    rw [entryOf, if_neg hcontains]
    rfl

/-! ## The groups of the places that were seen -/

/-- Groups hold the wanted things of some places: there is a group for each wanted category that a
place has, in the order of the first such places, and it describes all of them in turn. -/
structure Agrees (doc : Document) (things : Table Category) (names : List (String × NameSource))
    (wanted : List Category) (seen : List Place) (groups : Groups) : Prop where
  keys (category : Category) : category ∈ groups.map Prod.fst ↔
    category ∈ wanted ∧ ∃ place ∈ seen, Thing.classify doc things place = .ok (some category)
  ordered : (groups.map Prod.fst).Pairwise fun category later =>
    seen.findIdx (Thing.inCategory doc things category) <
      seen.findIdx (Thing.inCategory doc things later)
  listed (category : Category) : category ∈ wanted →
    List.Forall₂ (Describes doc things names category)
      (seen.filter (Thing.inCategory doc things category)) ((groups.lookup category).getD [])

namespace Agrees

variable {seen : List Place} {groups : Groups}

theorem nil : Agrees doc things names wanted [] [] where
  keys category := by simp
  ordered := .nil
  listed category hwanted := .nil

theorem findIdx_append (h : Agrees doc things names wanted seen groups) {category : Category}
    (hkey : category ∈ groups.map Prod.fst) (rest : List Place) :
    (seen ++ rest).findIdx (Thing.inCategory doc things category) =
        seen.findIdx (Thing.inCategory doc things category) ∧
      seen.findIdx (Thing.inCategory doc things category) < seen.length := by
  obtain ⟨-, first, hfirst, hclass⟩ := (h.keys category).1 hkey
  have hlt : seen.findIdx (Thing.inCategory doc things category) < seen.length :=
    List.findIdx_lt_length_of_exists ⟨first, hfirst, Thing.inCategory_iff.2 hclass⟩
  exact ⟨(List.prefix_append seen rest).findIdx_eq_of_findIdx_lt_length hlt, hlt⟩

theorem ordered_append (h : Agrees doc things names wanted seen groups) (rest : List Place) :
    (groups.map Prod.fst).Pairwise fun category later =>
      (seen ++ rest).findIdx (Thing.inCategory doc things category) <
        (seen ++ rest).findIdx (Thing.inCategory doc things later) := by
  refine h.ordered.imp_of_mem ?_
  intro category later hcategory hlater hlt
  rw [(h.findIdx_append hcategory rest).1, (h.findIdx_append hlater rest).1]
  exact hlt

theorem skip (h : Agrees doc things names wanted seen groups) {found : Option Category}
    (hclass : Thing.classify doc things place = .ok found)
    (hunwanted : ∀ category, found = some category → category ∉ wanted) :
    Agrees doc things names wanted (seen ++ [place]) groups where
  keys category := by
    rw [h.keys category]
    refine and_congr_right fun hwanted => ?_
    have hother : Thing.classify doc things place ≠ .ok (some category) := by
      rw [hclass]
      intro hsame
      exact hunwanted category (Except.ok.inj hsame) hwanted
    simp [hother]
  ordered := h.ordered_append [place]
  listed category hwanted := by
    have hother : Thing.inCategory doc things category place = false := by
      rw [Thing.inCategory_eq hclass, beq_eq_false_iff_ne]
      intro hsame
      exact hunwanted category hsame hwanted
    rw [List.filter_append, List.filter_singleton, hother]
    simpa using h.listed category hwanted

theorem add (h : Agrees doc things names wanted seen groups) {category : Category} {entry : Entry}
    (hclass : Thing.classify doc things place = .ok (some category)) (hwanted : category ∈ wanted)
    (hentry : Describes doc things names category place entry) :
    Agrees doc things names wanted (seen ++ [place]) (insert entry groups) where
  keys other := by
    rw [mem_keys_insert, h.keys other, hentry.category]
    constructor
    · rintro (⟨hother, first, hfirst, hsame⟩ | rfl)
      · exact ⟨hother, first, List.mem_append_left _ hfirst, hsame⟩
      · exact ⟨hwanted, place, by simp, hclass⟩
    · rintro ⟨hother, first, hfirst, hsame⟩
      rcases List.mem_append.1 hfirst with hfirst | hlast
      · exact .inl ⟨hother, first, hfirst, hsame⟩
      · rw [List.mem_singleton.1 hlast, hclass] at hsame
        cases hsame
        exact .inr rfl
  ordered := by
    rw [keys_insert, hentry.category]
    split
    next => exact h.ordered_append [place]
    next hnew =>
      -- No place before this one has the category, so its group comes last.
      have hnone : seen.findIdx (Thing.inCategory doc things category) = seen.length := by
        refine List.findIdx_eq_length.2 fun first hfirst => ?_
        rw [Bool.eq_false_iff, ne_eq, Thing.inCategory_iff]
        exact fun hsame => hnew ((h.keys category).2 ⟨hwanted, first, hfirst, hsame⟩)
      refine List.pairwise_append.2 ⟨h.ordered_append [place], List.pairwise_singleton _ _, ?_⟩
      intro other hother last hlast
      obtain ⟨hfirst, hlt⟩ := h.findIdx_append hother [place]
      rw [List.mem_singleton.1 hlast, hfirst, List.findIdx_append, hnone, if_neg (Nat.lt_irrefl _)]
      exact Nat.lt_add_left _ hlt
  listed other hother := by
    rw [List.filter_append, List.filter_singleton, Thing.inCategory_eq hclass, lookup_insert,
      hentry.category]
    by_cases hsame : other = category
    · subst hsame
      rw [if_pos rfl, beq_self_eq_true, cond_true, Option.getD_some]
      exact List.rel_append (h.listed other hwanted) (.cons hentry .nil)
    · have hmiss : (some category == some other) = false :=
        beq_eq_false_iff_ne.2 fun heq => hsame (Option.some.inj heq).symm
      rw [if_neg hsame, hmiss, cond_false, List.append_nil]
      exact h.listed other hother

end Agrees

/-! ## The run -/

theorem collect_cons_bind {found : Option Category} {rest : List Place} {memory : Memory}
    {groups : Groups} (hclass : (Thing.recallClassify doc things place memory).1 = .ok found) :
    collect doc things names wanted (place :: rest) memory groups =
      entryOf doc names wanted place found >>= fun made =>
        collect doc things names wanted rest (Thing.recallClassify doc things place memory).2
          (made.elim groups fun entry => insert entry groups) := by
  rw [collect]
  generalize Thing.recallClassify doc things place memory = recalled at hclass ⊢
  obtain ⟨answer, left⟩ := recalled
  cases hclass
  change (entryOf doc names wanted place found >>= _) = _
  congr
  funext made
  cases made with
  | none => rfl
  | some entry => rfl

theorem collect_cons {found : Option Category} {made : Option Entry} {rest : List Place}
    {memory : Memory} {groups : Groups}
    (hclass : (Thing.recallClassify doc things place memory).1 = .ok found)
    (hmade : entryOf doc names wanted place found = .ok made) :
    collect doc things names wanted (place :: rest) memory groups =
      collect doc things names wanted rest (Thing.recallClassify doc things place memory).2
        (made.elim groups fun entry => insert entry groups) := by
  rw [collect_cons_bind hclass, hmade]
  rfl

theorem Agrees.step {seen : List Place} {groups : Groups} {found : Option Category}
    (h : Agrees doc things names wanted seen groups) (hnames : ∀ entry ∈ names, entry.2.Forward)
    (hfound : Thing.classify doc things place = .ok found) :
    ∃ made, entryOf doc names wanted place found = .ok made ∧
      Agrees doc things names wanted (seen ++ [place])
        (made.elim groups fun entry => insert entry groups) := by
  by_cases hwanted : ∃ category ∈ wanted, found = some category
  · obtain ⟨category, hwanted, rfl⟩ := hwanted
    obtain ⟨entry, hmade, hentry⟩ := entryOf_describes hnames hfound hwanted
    exact ⟨some entry, hmade, h.add hfound hwanted hentry⟩
  · have hunwanted : ∀ category, found = some category → category ∉ wanted :=
      fun category hsome hmem => hwanted ⟨category, hmem, hsome⟩
    exact ⟨none, entryOf_unwanted hunwanted, h.skip hfound hunwanted⟩

-- The memory that a place has left is faithful again, so the next place is classified as it is on
-- its own, and the places seen so far grow by one.
theorem Agrees.collect {seen places : List Place} {groups : Groups} {memory : Memory}
    (h : Agrees doc things names wanted seen groups) (hmemory : memory.Faithful doc)
    (hnames : ∀ entry ∈ names, entry.2.Forward)
    (hplaces : ∀ place ∈ places, ∃ found, Thing.classify doc things place = .ok found) :
    ∃ result, Outline.collect doc things names wanted places memory groups = .ok result ∧
      Agrees doc things names wanted (seen ++ places) result := by
  induction places generalizing seen memory groups with
  | nil =>
    refine ⟨groups, rfl, ?_⟩
    rw [List.append_nil]
    exact h
  | cons place rest ih =>
    obtain ⟨⟨found, hfound⟩, hrest⟩ := List.forall_mem_cons.1 hplaces
    obtain ⟨hclass, hfaithful⟩ := Thing.recallClassify_recalled things place hmemory
    obtain ⟨made, hmade, hstep⟩ := h.step hnames hfound
    obtain ⟨result, hresult, hagrees⟩ := ih hstep hfaithful hrest
    rw [List.append_assoc, List.singleton_append] at hagrees
    refine ⟨result, ?_, hagrees⟩
    rw [collect_cons (hclass.trans hfound) hmade]
    exact hresult

def listTree : Tree :=
  .node ⟨0, "list", 0, 3, true, none, false⟩
    [.node ⟨1, "word", 0, 1, true, none, false⟩ [], .node ⟨2, "word", 2, 3, true, none, false⟩ []]

/-- Two words in two rows. The query captures the words. -/
def listDocument : Document where
  language := "lists"
  source := Source.ofBytes [97, 10, 98]
  tree := listTree
  captures _ _ := [("word", (⟨listTree, []⟩ : Place).children)]
  toolkit := ⟨fun _ => .ok ⟨fun _ => true, fun _ => true⟩, fun _ _ => .ok ["word"]⟩

theorem checkNode_list :
    ∀ place ∈ listDocument.tree.places, listDocument.checkNode place = .ok () := by
  have hplaces : listDocument.tree.places =
      ⟨listTree, []⟩ :: (⟨listTree, []⟩ : Place).children := rfl
  rw [hplaces]
  simp [Place.children, listTree, Tree.children, Document.checkNode, Tree.label, Place.start,
    Place.stop, Tree.start, Tree.stop, Source.size, listDocument, Source.ofBytes]

end Outline

end TreeRules
