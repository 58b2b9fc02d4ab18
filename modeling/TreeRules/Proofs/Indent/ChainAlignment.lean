import TreeRules.Indent.Column
import TreeRules.Proofs.Indent.RowTarget

/-! # Alignment of member chains

A chain of member accesses is seen from two sides. A target climbs to its nearest link and on to the
topmost one; from there the links are listed by going down through first children. Where links hang
below links as first children only, both ways pass the same links. So two targets on one chain look
at the same operators, and they differ in nothing but how many of these stand before their text.
-/
namespace TreeRules

namespace MemberChain

variable {kinds : List String} {tree : Tree} {place link top : Place}

/-! ## Chains in a tree -/

/-- Nodes of the chain's types hang below each other as first children only. -/
def LeftNested (kinds : List String) (tree : Tree) : Prop :=
  ∀ place ∈ tree.places, place.kind ∈ kinds → ∀ child ∈ place.children.tail, child.kind ∉ kinds

instance (kinds : List String) (tree : Tree) : Decidable (LeftNested kinds tree) :=
  inferInstanceAs (Decidable (∀ place ∈ tree.places, place.kind ∈ kinds →
    ∀ child ∈ place.children.tail, child.kind ∉ kinds))

/-- The first node of the chain's types on the way up from a place. -/
structure Nearest (kinds : List String) (place link : Place) : Prop where
  up : link ∈ place.upwards
  kind : link.kind ∈ kinds
  first : ∀ other ∈ place.upwards, other.kind ∈ kinds → other ∈ link.upwards

/-- The end of the way up from a link as long as the nodes are of the chain's types. -/
structure TopOf (kinds : List String) (link top : Place) : Prop where
  up : top ∈ link.upwards
  unbroken : ∀ other ∈ link.upwards, top ∈ other.upwards → other.kind ∈ kinds
  maximal : ∀ parent, top.parent? = some parent → parent.kind ∉ kinds

theorem Nearest.link?_eq (h : Nearest kinds place link) : link? kinds place = some link := by
  have hlink : kinds.contains link.kind = true := List.contains_iff_mem.mpr h.kind
  cases hfound : link? kinds place with
  | none =>
    have hnone := List.find?_eq_none.mp hfound link h.up
    exact absurd hlink hnone
  | some found =>
    obtain ⟨hkind, front, back, hsplit, hfront⟩ := List.find?_eq_some_iff_append.mp hfound
    have hmem : found ∈ place.upwards := List.mem_of_find?_eq_some hfound
    have hbelow : found ∈ link.upwards := h.first found hmem (List.contains_iff_mem.mp hkind)
    have habove : link ∈ found.upwards := by
      have hpairs := place.upwards_pairwise
      have hup := h.up
      rw [hsplit] at hpairs hup
      rcases List.mem_append.mp hup with hup | hup
      · have hother := hfront link hup
        simp only [hlink, Bool.not_true, Bool.false_eq_true] at hother
      · rcases List.mem_cons.mp hup with rfl | hup
        · exact link.self_mem_upwards
        · exact (List.pairwise_cons.mp (List.pairwise_append.mp hpairs).2.1).1 link hup
    rw [Place.mem_upwards_antisymm hbelow habove]

theorem TopOf.topFrom_eq (h : TopOf kinds link top) : topFrom kinds link.node link.above = top := by
  obtain ⟨node, above⟩ := link
  induction above generalizing node with
  | nil => exact (List.mem_singleton.mp h.up).symm
  | cons parent above ih =>
    have hparent : (⟨node, parent :: above⟩ : Place).parent? = some ⟨parent, above⟩ := rfl
    have hup : ⟨parent, above⟩ ∈ (⟨node, parent :: above⟩ : Place).upwards :=
      List.mem_cons_of_mem _ (Place.self_mem_upwards _)
    simp only [topFrom]
    by_cases hkind : parent.kind ∈ kinds
    · rw [if_pos (List.contains_iff_mem.mpr hkind)]
      have hne : top ≠ ⟨node, parent :: above⟩ := by
        rintro rfl
        exact h.maximal ⟨parent, above⟩ hparent hkind
      apply ih parent
      refine ⟨Place.mem_upwards_parent hparent h.up hne, ?_, h.maximal⟩
      intro other hother htop
      exact h.unbroken other (Place.mem_upwards_trans hother hup) htop
    · rw [if_neg (fun hcontains => hkind (List.contains_iff_mem.mp hcontains))]
      by_contra hne
      have htop := Place.mem_upwards_parent hparent h.up (fun hsame => hne hsame.symm)
      exact hkind (h.unbroken ⟨parent, above⟩ hup htop)

/-! ## The links from the top down -/

theorem top_mem_links {above : List Tree} (h : tree.kind ∈ kinds) :
    ⟨tree, above⟩ ∈ links kinds above tree := by
  obtain ⟨label, children⟩ := tree
  have hlabel : kinds.contains label.kind = true := List.contains_iff_mem.mpr h
  cases children with
  | nil => simp only [links, hlabel, if_true, List.mem_cons_self]
  | cons child rest => simp only [links, hlabel, if_true, List.mem_cons_self]

/-- What holds of the top and passes from links to those of their children that have one of the
chain's types holds of all links. -/
theorem links_induction {P : Place → Prop} {above : List Tree}
    (htop : tree.kind ∈ kinds → P ⟨tree, above⟩)
    (hchild : ∀ place, P place → ∀ child ∈ place.children, child.kind ∈ kinds → P child) :
    ∀ link ∈ links kinds above tree, P link := by
  fun_induction links kinds above tree with
  | case1 above label hlabel =>
    have hlabel := htop (List.contains_iff_mem.mp hlabel)
    simpa using hlabel
  | case2 above label hlabel => simp
  | case3 above label first rest hlabel ih =>
    have hlabel := htop (List.contains_iff_mem.mp hlabel)
    refine List.forall_mem_cons.mpr ⟨hlabel, ih ?_⟩
    exact hchild _ hlabel _ (List.mem_map_of_mem List.mem_cons_self)
  | case4 above label first rest hlabel => simp

theorem head_mem_links {above : List Tree} {child : Place} (h : link ∈ links kinds above tree)
    (hchild : link.children.head? = some child) (hkind : child.kind ∈ kinds) :
    child ∈ links kinds above tree := by
  fun_induction links kinds above tree with
  | case1 above label hlabel =>
    obtain rfl := List.mem_singleton.mp h
    simp [Place.children, Tree.children] at hchild
  | case2 above label hlabel => cases h
  | case3 above label first rest hlabel ih =>
    rcases List.mem_cons.mp h with rfl | h
    · have hfirst : child = ⟨first, .node label (first :: rest) :: above⟩ := by
        simpa [Place.children, Tree.children] using hchild.symm
      subst hfirst
      exact List.mem_cons_of_mem _ (top_mem_links hkind)
    · exact List.mem_cons_of_mem _ (ih h)
  | case4 above label first rest hlabel => cases h

theorem head?_of_leftNested (h : LeftNested kinds tree) (hplace : place ∈ tree.places)
    (hkind : place.kind ∈ kinds) {child : Place} (hchild : child ∈ place.children)
    (hchain : child.kind ∈ kinds) : place.children.head? = some child := by
  have htail := h place hplace hkind
  cases hchildren : place.children with
  | nil => simp [hchildren] at hchild
  | cons first rest =>
    rw [hchildren] at hchild htail
    rcases List.mem_cons.mp hchild with rfl | hrest
    · rfl
    · exact absurd hchain (htail child hrest)

namespace TopOf

theorem kind (h : TopOf kinds link top) : link.kind ∈ kinds :=
  h.unbroken link link.self_mem_upwards h.up

theorem self (h : TopOf kinds link top) : TopOf kinds top top := by
  refine ⟨top.self_mem_upwards, ?_, h.maximal⟩
  intro other hother habove
  rw [Place.mem_upwards_antisymm hother habove]
  exact h.unbroken top h.up top.self_mem_upwards

theorem child (h : TopOf kinds link top) {child : Place} (hchild : child ∈ link.children)
    (hkind : child.kind ∈ kinds) : TopOf kinds child top := by
  have hway := Place.upwards_child hchild
  refine ⟨Place.mem_upwards_trans h.up (Place.mem_upwards_child hchild), ?_, h.maximal⟩
  intro other hother habove
  rw [hway] at hother
  rcases List.mem_cons.mp hother with rfl | hother
  · exact hkind
  · exact h.unbroken other hother habove

theorem parent (h : TopOf kinds link top) {parent : Place} (hlink : link ∈ parent.children)
    (hne : top ≠ link) : TopOf kinds parent top := by
  have hway := Place.upwards_child hlink
  have hup := h.up
  rw [hway] at hup
  refine ⟨(List.mem_cons.mp hup).resolve_left hne, ?_, h.maximal⟩
  intro other hother habove
  refine h.unbroken other ?_ habove
  rw [hway]
  exact List.mem_cons_of_mem _ hother

end TopOf

/-- Below the top of a chain, going down through first children comes to the nodes of the tree from
which the way up ends at that top, and to no others. -/
theorem mem_links_iff (h : LeftNested kinds tree) (hmem : top ∈ tree.places)
    (htop : TopOf kinds top top) :
    link ∈ links kinds top.above top.node ↔ link ∈ tree.places ∧ TopOf kinds link top := by
  constructor
  · have hall : ∀ link ∈ links kinds top.above top.node,
        link ∈ tree.places ∧ TopOf kinds link top := by
      refine links_induction (fun _ => ⟨hmem, htop⟩) ?_
      rintro place ⟨hplace, hchain⟩ child hchild hkind
      exact ⟨Tree.child_mem_places hplace hchild, hchain.child hchild hkind⟩
    exact hall link
  · -- From the root down: a link is the top, or the first child of another link.
    have hall : ∀ link ∈ tree.places, TopOf kinds link top →
        link ∈ links kinds top.above top.node := by
      refine Tree.places_induction ?_ ?_
      · intro hchain
        rw [← List.mem_singleton.mp hchain.up]
        exact top_mem_links htop.kind
      · intro place hplace ih child hchild hchain
        by_cases hsame : top = child
        · subst hsame
          exact top_mem_links hchain.kind
        · have hparent := hchain.parent hchild hsame
          have hhead := head?_of_leftNested h hplace hparent.kind hchild hchain.kind
          exact head_mem_links (ih hparent) hhead hchain.kind
    rintro ⟨hlink, hchain⟩
    exact hall link hlink hchain

/-! ## Operators that start their line -/

/-- An operator of the chain below a top: a child without a name of one of its links, with nothing
but margin before it in its row. -/
structure LineOperator (doc : Document) (kinds : List String) (top operator : Place) : Prop where
  child : ∃ link ∈ doc.tree.places, TopOf kinds link top ∧ operator ∈ link.children
  anonymous : operator.node.label.named = false
  sign : operator.kind ∈ operators
  starts : doc.startsRow operator = true

def operatorsBefore (doc : Document) (kinds : List String) (top : Place) (ink : Int) :
    List Place :=
  (operatorsOf kinds top).filter fun operator =>
    (operator.start : Int) < ink && doc.startsRow operator

theorem mem_operatorsBefore_iff {doc : Document} (h : LeftNested kinds doc.tree)
    (hmem : top ∈ doc.tree.places) (htop : TopOf kinds top top) {ink : Int} {operator : Place} :
    operator ∈ operatorsBefore doc kinds top ink ↔
      LineOperator doc kinds top operator ∧ (operator.start : Int) < ink := by
  simp only [operatorsBefore, operatorsOf, List.mem_flatMap, List.mem_filter, Bool.and_eq_true,
    Bool.not_eq_true', List.contains_iff_mem, mem_links_iff h hmem htop, decide_eq_true_eq]
  constructor
  · rintro ⟨⟨link, ⟨hlink, hchain⟩, hchild, hnamed, hsign⟩, hbefore, hstarts⟩
    exact ⟨⟨⟨link, hlink, hchain, hchild⟩, hnamed, hsign, hstarts⟩, hbefore⟩
  · rintro ⟨⟨⟨link, hlink, hchain, hchild⟩, hnamed, hsign, hstarts⟩, hbefore⟩
    exact ⟨⟨link, ⟨hlink, hchain⟩, hchild, hnamed, hsign⟩, hbefore, hstarts⟩

theorem earliest?_eq_none {places : List Place} (h : earliest? places = none) : places = [] := by
  cases places with
  | nil => rfl
  | cons place rest =>
    simp only [earliest?] at h
    split at h
    · split at h <;> cases h
    · cases h

theorem earliest?_eq_some {places : List Place} {first : Place}
    (h : earliest? places = some first) :
    first ∈ places ∧ ∀ other ∈ places, first.start ≤ other.start := by
  induction places generalizing first with
  | nil => cases h
  | cons place rest ih =>
    simp only [earliest?] at h
    cases hrest : earliest? rest with
    | none =>
      simp only [hrest, Option.some.injEq] at h
      simp [h, earliest?_eq_none hrest]
    | some other =>
      obtain ⟨hmem, hle⟩ := ih hrest
      simp only [hrest] at h
      split at h
      next hlt =>
        cases h
        refine ⟨List.mem_cons_of_mem _ hmem, ?_⟩
        exact List.forall_mem_cons.mpr ⟨Nat.le_of_lt hlt, hle⟩
      next hge =>
        cases h
        refine ⟨List.mem_cons_self, List.forall_mem_cons.mpr ⟨Nat.le_refl _, ?_⟩⟩
        intro next hnext
        have hnext := hle next hnext
        omega

/-- Before a text that an operator stands before, there is one that stands before all others. -/
theorem earliest?_operatorsBefore {doc : Document} (h : LeftNested kinds doc.tree)
    (hmem : top ∈ doc.tree.places) (htop : TopOf kinds top top) {ink : Int} {operator : Place}
    (hoperator : LineOperator doc kinds top operator) (hbefore : (operator.start : Int) < ink) :
    ∃ first, earliest? (operatorsBefore doc kinds top ink) = some first ∧
      LineOperator doc kinds top first ∧
      ∀ other, LineOperator doc kinds top other → first.start ≤ other.start := by
  have hin := (mem_operatorsBefore_iff h hmem htop).mpr ⟨hoperator, hbefore⟩
  cases hfound : earliest? (operatorsBefore doc kinds top ink) with
  | none => simp [earliest?_eq_none hfound] at hin
  | some first =>
    obtain ⟨hfirst, hle⟩ := earliest?_eq_some hfound
    obtain ⟨hsign, hearly⟩ := (mem_operatorsBefore_iff h hmem htop).mp hfirst
    refine ⟨first, rfl, hsign, ?_⟩
    intro other hother
    by_cases hearlier : (other.start : Int) < ink
    · exact hle other ((mem_operatorsBefore_iff h hmem htop).mpr ⟨hother, hearlier⟩)
    · omega

end MemberChain

namespace Column
open MemberChain

variable {doc : Document} {kinds : List String} {top link : Place} {target : Target}

/-- A target of a document whose nearest link, from its node or else from its parent, belongs to the
chain below a top. -/
structure OnChain (doc : Document) (kinds : List String) (top : Place) (target : Target)
    (link : Place) : Prop where
  nearest : ∃ place ∈ doc.tree.places, target.node.or target.parent = some place ∧
    Nearest kinds place link
  chain : TopOf kinds link top

namespace OnChain

theorem link_mem (h : OnChain doc kinds top target link) : link ∈ doc.tree.places := by
  obtain ⟨place, hplace, -, hnearest⟩ := h.nearest
  exact Tree.mem_places_of_mem_upwards hplace hnearest.up

theorem top_mem (h : OnChain doc kinds top target link) : top ∈ doc.tree.places :=
  Tree.mem_places_of_mem_upwards h.link_mem h.chain.up

/-- The chain of a target and the start of its text decide its column. -/
theorem atMemberChain_eq (h : OnChain doc kinds top target link) (unit : Int) :
    atMemberChain doc target kinds unit =
      ((earliest? (operatorsBefore doc kinds top (target.ink.getD 0))).map (columnOf doc)).getD
        (doc.rowColumn top + unit) := by
  obtain ⟨place, -, hplace, hnearest⟩ := h.nearest
  simp only [atMemberChain, hplace, Option.bind_some, hnearest.link?_eq, h.chain.topFrom_eq]
  rw [← operatorsBefore]
  cases earliest? (operatorsBefore doc kinds top (target.ink.getD 0)) <;> rfl

theorem column_of_earliest (h : OnChain doc kinds top target link)
    (hnested : LeftNested kinds doc.tree) (unit : Int) {operator : Place}
    (hoperator : LineOperator doc kinds top operator)
    (hearliest : ∀ other, LineOperator doc kinds top other → operator.start ≤ other.start)
    (hbefore : (operator.start : Int) < target.ink.getD 0) :
    atMemberChain doc target kinds unit = columnOf doc operator := by
  obtain ⟨first, hfirst, hsign, hle⟩ :=
    earliest?_operatorsBefore hnested h.top_mem h.chain.self hoperator hbefore
  have hsame : first.start = operator.start :=
    Nat.le_antisymm (hle operator hoperator) (hearliest first hsign)
  rw [h.atMemberChain_eq unit, hfirst]
  simp only [Option.map_some, Option.getD_some, columnOf, hsame]

theorem column_of_none (h : OnChain doc kinds top target link)
    (hnested : LeftNested kinds doc.tree) (unit : Int)
    (hnone : ∀ operator, LineOperator doc kinds top operator →
      ¬(operator.start : Int) < target.ink.getD 0) :
    atMemberChain doc target kinds unit = doc.rowColumn top + unit := by
  rw [h.atMemberChain_eq unit]
  cases hfound : earliest? (operatorsBefore doc kinds top (target.ink.getD 0)) with
  | none => rfl
  | some first =>
    have hmem := (earliest?_eq_some hfound).1
    obtain ⟨hsign, hbefore⟩ := (mem_operatorsBefore_iff hnested h.top_mem h.chain.self).mp hmem
    exact absurd hbefore (hnone first hsign)

end OnChain

theorem ofAnchor_memberChain {action : IndentAction} (hanchor : action.anchor = .memberChain)
    (hkinds : kindsOf action.chain = .ok kinds) (unit : Int) :
    ofAnchor doc target unit action = .ok (atMemberChain doc target kinds unit) := by
  simp only [ofAnchor, hanchor, hkinds]
  rfl

/-- In a tree where links hang below links as first children only, two targets on one chain have
their nearest links among those below its top. If an operator that starts its line stands before the
texts of both, both get the column of the earliest such operator of the chain; if none stands before
either text, both get one unit more than the column at which the row of the chain starts. -/
theorem memberChain_aligned {doc : Document} {action : IndentAction} {kinds : List String}
    {top link link' : Place} {target target' : Target} (unit : Int)
    (hanchor : action.anchor = .memberChain) (hkinds : kindsOf action.chain = .ok kinds)
    (hnested : LeftNested kinds doc.tree) (h : OnChain doc kinds top target link)
    (h' : OnChain doc kinds top target' link') :
    (link ∈ links kinds top.above top.node ∧ link' ∈ links kinds top.above top.node) ∧
      ((∃ operator, LineOperator doc kinds top operator ∧
          (operator.start : Int) < target.ink.getD 0 ∧
          (operator.start : Int) < target'.ink.getD 0) →
        ∃ operator, LineOperator doc kinds top operator ∧
          (operator.start : Int) < target.ink.getD 0 ∧
          (operator.start : Int) < target'.ink.getD 0 ∧
          (∀ other, LineOperator doc kinds top other → operator.start ≤ other.start) ∧
          ofAnchor doc target unit action = .ok (doc.columnOf operator.start) ∧
          ofAnchor doc target' unit action = .ok (doc.columnOf operator.start)) ∧
      ((∀ operator, LineOperator doc kinds top operator →
          ¬(operator.start : Int) < target.ink.getD 0 ∧
          ¬(operator.start : Int) < target'.ink.getD 0) →
        ofAnchor doc target unit action = .ok (doc.rowColumn top + unit) ∧
        ofAnchor doc target' unit action = .ok (doc.rowColumn top + unit)) := by
  have hlinks : ∀ link, link ∈ links kinds top.above top.node ↔
      link ∈ doc.tree.places ∧ TopOf kinds link top :=
    fun link => mem_links_iff hnested h.top_mem h.chain.self
  rw [ofAnchor_memberChain hanchor hkinds, ofAnchor_memberChain hanchor hkinds]
  refine ⟨⟨(hlinks link).mpr ⟨h.link_mem, h.chain⟩, (hlinks link').mpr ⟨h'.link_mem, h'.chain⟩⟩,
    ?_, ?_⟩
  · rintro ⟨operator, hoperator, hbefore, hbefore'⟩
    obtain ⟨first, -, hfirst, hearliest⟩ :=
      earliest?_operatorsBefore hnested h.top_mem h.chain.self hoperator hbefore
    have hle := hearliest operator hoperator
    have hearly : (first.start : Int) < target.ink.getD 0 := by omega
    have hearly' : (first.start : Int) < target'.ink.getD 0 := by omega
    refine ⟨first, hfirst, hearly, hearly', hearliest, ?_, ?_⟩
    · rw [h.column_of_earliest hnested unit hfirst hearliest hearly, columnOf]
    · rw [h'.column_of_earliest hnested unit hfirst hearliest hearly', columnOf]
  · intro hnone
    rw [h.column_of_none hnested unit fun operator hoperator => (hnone operator hoperator).1,
      h'.column_of_none hnested unit fun operator hoperator => (hnone operator hoperator).2]
    exact ⟨rfl, rfl⟩

/-! ### Four rows of one chain -/

def firstAccess : Tree :=
  .node ⟨4, "attribute", 0, 5, true, none, false⟩
    [.node ⟨5, "name", 0, 1, true, none, false⟩ [],
      .node ⟨6, ".", 3, 4, false, none, false⟩ [],
      .node ⟨7, "name", 4, 5, true, none, false⟩ []]

def secondAccess : Tree :=
  .node ⟨2, "attribute", 0, 9, true, none, false⟩
    [firstAccess, .node ⟨8, ".", 7, 8, false, none, false⟩ [],
      .node ⟨9, "name", 8, 9, true, none, false⟩ []]

def thirdAccess : Tree :=
  .node ⟨1, "attribute", 0, 12, true, none, false⟩
    [secondAccess, .node ⟨10, ".", 10, 11, false, none, false⟩ [],
      .node ⟨11, "name", 11, 12, true, none, false⟩ []]

def accessTree : Tree := .node ⟨0, "module", 0, 12, true, none, false⟩ [thirdAccess]

/-- The rows `a`, `.b` behind a tab, `.c` behind a space, and `.d`. -/
def accessDocument : Document :=
  Target.plainDocument [97, 10, 9, 46, 98, 10, 32, 46, 99, 10, 46, 100] accessTree

def accessTop : Place := ⟨thirdAccess, [accessTree]⟩

def accessAction : IndentAction := { anchor := .memberChain, chain := [.text "attribute"] }

theorem topOf_access : TopOf ["attribute"] accessTop accessTop := by
  refine ⟨accessTop.self_mem_upwards, ?_, ?_⟩
  · intro other hother habove
    rw [Place.mem_upwards_antisymm hother habove]
    decide
  · rintro parent ⟨rfl⟩
    decide

/-- The node that a row starts with is a dot, which hangs off a link. -/
theorem nearest_dot {link dot : Place} (hdot : dot ∈ link.children) (hkind : dot.kind = ".")
    (hlink : link.kind = "attribute") : Nearest ["attribute"] dot link := by
  refine ⟨Place.mem_upwards_child hdot, by simp [hlink], ?_⟩
  intro other hother hchain
  rw [Place.upwards_child hdot] at hother
  rcases List.mem_cons.mp hother with rfl | hother
  · simp [hkind] at hchain
  · exact hother

theorem onChain_second : OnChain accessDocument ["attribute"] accessTop
    (Target.ofRowAt accessDocument 2) ⟨secondAccess, [thirdAccess, accessTree]⟩ := by
  have hchild : ⟨secondAccess, [thirdAccess, accessTree]⟩ ∈ accessTop.children :=
    List.mem_cons_self
  have hdot : ⟨.node ⟨8, ".", 7, 8, false, none, false⟩ [],
      [secondAccess, thirdAccess, accessTree]⟩ ∈
        (⟨secondAccess, [thirdAccess, accessTree]⟩ : Place).children :=
    List.mem_cons_of_mem _ List.mem_cons_self
  have htop : accessTop ∈ accessDocument.tree.places :=
    List.mem_cons_of_mem _ List.mem_cons_self
  exact ⟨⟨_, Tree.child_mem_places (Tree.child_mem_places htop hchild) hdot, rfl,
    nearest_dot hdot rfl rfl⟩, topOf_access.child hchild (by decide)⟩

theorem onChain_third : OnChain accessDocument ["attribute"] accessTop
    (Target.ofRowAt accessDocument 3) accessTop := by
  have hdot : ⟨.node ⟨10, ".", 10, 11, false, none, false⟩ [], [thirdAccess, accessTree]⟩ ∈
      accessTop.children := List.mem_cons_of_mem _ List.mem_cons_self
  have htop : accessTop ∈ accessDocument.tree.places :=
    List.mem_cons_of_mem _ List.mem_cons_self
  exact ⟨⟨_, Tree.child_mem_places htop hdot, rfl, nearest_dot hdot rfl rfl⟩, topOf_access⟩

/-- The third and the fourth row are both aligned with the dot behind the tab. -/
theorem memberChain_aligned_dots : LeftNested ["attribute"] accessTree ∧
    OnChain accessDocument ["attribute"] accessTop (Target.ofRowAt accessDocument 2)
      ⟨secondAccess, [thirdAccess, accessTree]⟩ ∧
    OnChain accessDocument ["attribute"] accessTop (Target.ofRowAt accessDocument 3) accessTop ∧
    ofAnchor accessDocument (Target.ofRowAt accessDocument 2) 4 accessAction = .ok 8 ∧
    ofAnchor accessDocument (Target.ofRowAt accessDocument 3) 4 accessAction = .ok 8 := by
  have hnested : LeftNested ["attribute"] accessDocument.tree := by decide
  have hmem : ∀ operator, operator ∈ operatorsBefore accessDocument ["attribute"] accessTop 7 ↔
      LineOperator accessDocument ["attribute"] accessTop operator ∧ (operator.start : Int) < 7 :=
    fun operator => mem_operatorsBefore_iff hnested onChain_third.top_mem topOf_access
  have hbefore : operatorsBefore accessDocument ["attribute"] accessTop 7 =
      [⟨.node ⟨6, ".", 3, 4, false, none, false⟩ [],
        [firstAccess, secondAccess, thirdAccess, accessTree]⟩] := by cbv
  have hcolumn : (.ok (accessDocument.columnOf 3 : Int) : Outcome Int) = .ok 8 := by cbv
  simp only [hbefore, List.mem_singleton] at hmem
  have hanchor : accessAction.anchor = .memberChain := rfl
  have hkinds : kindsOf accessAction.chain = .ok ["attribute"] := rfl
  obtain ⟨-, haligned, -⟩ :=
    memberChain_aligned 4 hanchor hkinds hnested onChain_second onChain_third
  obtain ⟨dot, hdot, hseven, -, -, hsecond, hthird⟩ :=
    haligned ⟨_, ((hmem _).mp rfl).1, by decide, by decide⟩
  obtain rfl := (hmem dot).mpr ⟨hdot, hseven⟩
  exact ⟨hnested, onChain_second, onChain_third, hsecond.trans hcolumn, hthird.trans hcolumn⟩

end Column

end TreeRules
