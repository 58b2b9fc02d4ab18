import Mathlib.Data.List.Infix
import Mathlib.Data.List.Pairwise
import Mathlib.Tactic.Common
import TreeRules.Proofs.Tree.Places

/-! # Trees in order

In a tree whose children lie inside their parents and follow each other, of two places that are
listed one after the other the first is above the second or ends before it starts. So the starts of
the places do not decrease, and the places around a byte are above each other. A descent towards a
byte ends at the lowest of them, and the climb from there at the highest one that starts at the byte
and is not the root.
-/
namespace TreeRules

namespace Place

/-! ## The way up -/

/-- The nodes from a place up to the root. -/
def path (place : Place) : List Tree := place.node :: place.above

theorem path_injective {place other : Place} (h : place.path = other.path) : place = other := by
  obtain ⟨node, above⟩ := place
  obtain ⟨node', above'⟩ := other
  obtain ⟨rfl, rfl⟩ := List.cons_eq_cons.1 h
  rfl

theorem mem_upwards_iff {place lower : Place} :
    place ∈ lower.upwards ↔ place.path <:+ lower.path := by
  obtain ⟨node, above⟩ := lower
  induction above generalizing node with
  | nil =>
    change place ∈ [⟨node, []⟩] ↔ place.path <:+ [node]
    rw [List.mem_singleton, List.suffix_cons_iff]
    constructor
    · rintro rfl
      exact .inl rfl
    · rintro (hsame | hless)
      · exact path_injective hsame
      · simp [path] at hless
  | cons parent above ih =>
    change place ∈ ⟨node, parent :: above⟩ :: (⟨parent, above⟩ : Place).upwards ↔
      place.path <:+ node :: parent :: above
    rw [List.mem_cons, ih parent, List.suffix_cons_iff]
    constructor
    · rintro (rfl | hless)
      · exact .inl rfl
      · exact .inr hless
    · rintro (hsame | hless)
      · exact .inl (path_injective hsame)
      · exact .inr hless

theorem self_mem_upwards (place : Place) : place ∈ place.upwards :=
  mem_upwards_iff.2 (List.suffix_refl _)

theorem mem_upwards_trans {top place lower : Place} (htop : top ∈ place.upwards)
    (h : place ∈ lower.upwards) : top ∈ lower.upwards :=
  mem_upwards_iff.2 ((mem_upwards_iff.1 htop).trans (mem_upwards_iff.1 h))

theorem mem_upwards_antisymm {place other : Place} (h : place ∈ other.upwards)
    (hback : other ∈ place.upwards) : place = other := by
  have hle := mem_upwards_iff.1 h
  have hge := mem_upwards_iff.1 hback
  exact path_injective (hle.eq_of_length (Nat.le_antisymm hle.length_le hge.length_le))

theorem mem_upwards_total {place other lower : Place} (h : place ∈ lower.upwards)
    (hother : other ∈ lower.upwards) : place ∈ other.upwards ∨ other ∈ place.upwards := by
  rw [mem_upwards_iff] at h hother ⊢
  rw [mem_upwards_iff]
  exact List.suffix_or_suffix_of_suffix h hother

theorem upwards_child {place child : Place} (h : child ∈ place.children) :
    child.upwards = child :: place.upwards := by
  obtain ⟨node, -, rfl⟩ := List.mem_map.1 h
  rfl

theorem mem_upwards_child {place child : Place} (h : child ∈ place.children) :
    place ∈ child.upwards := by
  rw [upwards_child h]
  exact List.mem_cons_of_mem _ place.self_mem_upwards

theorem mem_upwards_parent {place parent top : Place} (hparent : place.parent? = some parent)
    (h : top ∈ place.upwards) (hne : top ≠ place) : top ∈ parent.upwards := by
  obtain ⟨node, above⟩ := place
  cases above with
  | nil => cases hparent
  | cons next above =>
    cases hparent
    rcases List.mem_cons.1 h with hsame | hup
    · exact absurd hsame hne
    · exact hup

theorem upwards_pairwise (place : Place) :
    place.upwards.Pairwise fun lower upper => upper ∈ lower.upwards := by
  obtain ⟨node, above⟩ := place
  induction above generalizing node with
  | nil => exact List.pairwise_singleton _ _
  | cons parent above ih =>
    refine List.pairwise_cons.2 ⟨?_, ih parent⟩
    intro upper hupper
    exact List.mem_cons_of_mem _ hupper

/-- The span of a place has a byte in it. -/
def Around (place : Place) (byte : Nat) : Prop := place.start ≤ byte ∧ byte < place.stop

/-- A place is above another or ends before that starts. -/
def Precedes (place later : Place) : Prop := place ∈ later.upwards ∨ place.stop ≤ later.start

/-- A place starts before another one, or starts with it and is above it. -/
def Heads (place other : Place) : Prop :=
  place.start ≤ other.start ∧ (place.start = other.start → place ∈ other.upwards)

theorem heads_self (place : Place) : place.Heads place :=
  ⟨le_rfl, fun _ => place.self_mem_upwards⟩

/-- The children of a place lie inside it and follow each other. -/
structure Tidy (place : Place) : Prop where
  span : place.start ≤ place.stop
  nested : ∀ child ∈ place.children, place.start ≤ child.start ∧ child.stop ≤ place.stop
  ordered : place.children.Pairwise fun left right => left.stop ≤ right.start

instance (place : Place) (byte : Nat) : Decidable (place.Around byte) :=
  inferInstanceAs (Decidable (place.start ≤ byte ∧ byte < place.stop))

instance (place : Place) : Decidable place.Tidy :=
  decidable_of_iff
    (place.start ≤ place.stop ∧
      (∀ child ∈ place.children, place.start ≤ child.start ∧ child.stop ≤ place.stop) ∧
      place.children.Pairwise fun left right => left.stop ≤ right.start)
    ⟨fun h => ⟨h.1, h.2.1, h.2.2⟩, fun h => ⟨h.span, h.nested, h.ordered⟩⟩

end Place

namespace Tree

open Place

/-- The children of every node lie inside it and follow each other. -/
def Arranged (tree : Tree) : Prop := ∀ place ∈ tree.places, place.Tidy

/-- No node is empty. -/
def Filled (tree : Tree) : Prop := ∀ place ∈ tree.places, place.start < place.stop

instance (tree : Tree) : Decidable tree.Arranged :=
  inferInstanceAs (Decidable (∀ place ∈ tree.places, place.Tidy))

instance (tree : Tree) : Decidable tree.Filled :=
  inferInstanceAs (Decidable (∀ place ∈ tree.places, place.start < place.stop))

variable {tree : Tree}

theorem mem_upwards_of_mem_walkFrom {above : List Tree} {place : Place}
    (h : place ∈ tree.walkFrom (fun _ => true) above) : ⟨tree, above⟩ ∈ place.upwards := by
  have hall := walkFrom_induction (P := fun place => (⟨tree, above⟩ : Place) ∈ place.upwards)
    (fun _ hplace _ hchild => mem_upwards_trans hplace (mem_upwards_child hchild)) tree
    (self_mem_upwards _)
  exact hall place h

theorem eq_root_of_above_eq_nil {place : Place} (h : place ∈ tree.places)
    (habove : place.above = []) : place = ⟨tree, []⟩ := by
  have hup := mem_upwards_of_mem_walkFrom h
  obtain ⟨node, above⟩ := place
  obtain rfl : above = [] := habove
  exact (List.mem_singleton.1 hup).symm

theorem mem_places_of_mem_walkFrom {root : Tree} {above : List Tree}
    (hmem : ⟨tree, above⟩ ∈ root.places) {place : Place}
    (h : place ∈ tree.walkFrom (fun _ => true) above) : place ∈ root.places := by
  have hall : ∀ place ∈ tree.walkFrom (fun _ => true) above, place ∈ root.places :=
    walkFrom_induction (fun _ hplace _ hchild => child_mem_places hplace hchild) tree hmem
  exact hall place h

theorem mem_places_of_mem_upwards {place top : Place} (h : place ∈ tree.places)
    (htop : top ∈ place.upwards) : top ∈ tree.places := by
  have hall : ∀ place ∈ tree.places, ∀ top ∈ place.upwards, top ∈ tree.places := by
    refine places_induction ?_ ?_
    · intro top htop
      rw [List.mem_singleton.1 htop]
      exact tree.root_mem_places
    · intro place hplace ih child hchild top htop
      rw [upwards_child hchild] at htop
      rcases List.mem_cons.1 htop with rfl | htop
      · exact child_mem_places hplace hchild
      · exact ih top htop
  exact hall place h top htop

theorem exists_child_of_mem_upwards {place top : Place} (h : place ∈ tree.places)
    (htop : top ∈ place.upwards) (hne : top ≠ place) :
    ∃ child ∈ top.children, child ∈ place.upwards := by
  have hall : ∀ place ∈ tree.places, ∀ top ∈ place.upwards, top ≠ place →
      ∃ child ∈ top.children, child ∈ place.upwards := by
    refine places_induction ?_ ?_
    · intro top htop hne
      exact absurd (List.mem_singleton.1 htop) hne
    · intro place _ ih lower hlower top htop hne
      rw [upwards_child hlower] at htop
      rcases List.mem_cons.1 htop with hsame | htop
      · exact absurd hsame hne
      · -- The last step up leads to `top` itself, or the child is further up.
        by_cases hplace : top = place
        · subst hplace
          exact ⟨lower, hlower, lower.self_mem_upwards⟩
        · obtain ⟨child, hchild, hup⟩ := ih top htop hplace
          exact ⟨child, hchild, mem_upwards_trans hup (mem_upwards_child hlower)⟩
  exact hall place h top htop hne

namespace Arranged

/-! ## Spans along the way up -/

theorem inside (h : tree.Arranged) {place top : Place} (hplace : place ∈ tree.places)
    (htop : top ∈ place.upwards) : top.start ≤ place.start ∧ place.stop ≤ top.stop := by
  have hall : ∀ place ∈ tree.places, ∀ top ∈ place.upwards,
      top.start ≤ place.start ∧ place.stop ≤ top.stop := by
    refine places_induction ?_ ?_
    · intro top htop
      obtain rfl := List.mem_singleton.1 htop
      exact ⟨le_rfl, le_rfl⟩
    · intro place hplace ih child hchild top htop
      rw [upwards_child hchild] at htop
      rcases List.mem_cons.1 htop with rfl | htop
      · exact ⟨le_rfl, le_rfl⟩
      · have hup := ih top htop
        have hin := (h place hplace).nested child hchild
        omega
  exact hall place hplace top htop

theorem around_of_mem_upwards (h : tree.Arranged) {place top : Place} {byte : Nat}
    (hplace : place ∈ tree.places) (htop : top ∈ place.upwards) (hbyte : place.Around byte) :
    top.Around byte := by
  have hin := h.inside hplace htop
  obtain ⟨hstart, hstop⟩ := hbyte
  exact ⟨by omega, by omega⟩

/-! ## The order of the places -/

-- A node is above all that follows in its own walk. Across two siblings everything of the first
-- ends before anything of the second starts.
mutual

theorem walkFrom_precedes {root : Tree} (h : root.Arranged) {above : List Tree} (tree : Tree)
    (hmem : ⟨tree, above⟩ ∈ root.places) :
    (tree.walkFrom (fun _ => true) above).Pairwise Precedes := by
  match tree with
  | .node label children =>
    have hchildren : ∀ child ∈ children, ⟨child, .node label children :: above⟩ ∈ root.places := by
      intro child hchild
      exact child_mem_places hmem (List.mem_map_of_mem hchild)
    have hordered := (h _ hmem).ordered
    rw [Place.children, List.pairwise_map] at hordered
    have hbelow : ∀ place ∈ (Tree.node label children).walkFrom (fun _ => true) above,
        ⟨.node label children, above⟩ ∈ place.upwards :=
      fun place hplace => mem_upwards_of_mem_walkFrom hplace
    rw [walkFrom, if_pos rfl] at hbelow ⊢
    refine List.pairwise_cons.2 ⟨?_, walkEach_precedes h children hchildren hordered⟩
    intro place hplace
    exact .inl (hbelow place (List.mem_cons_of_mem _ hplace))

theorem walkEach_precedes {root : Tree} (h : root.Arranged) {above : List Tree}
    (trees : List Tree) (hmem : ∀ tree ∈ trees, ⟨tree, above⟩ ∈ root.places)
    (hordered : trees.Pairwise fun left right => left.stop ≤ right.start) :
    (walkEach (fun _ => true) above trees).Pairwise Precedes := by
  match trees with
  | [] =>
    rw [walkEach]
    exact List.Pairwise.nil
  | tree :: rest =>
    obtain ⟨htree, hrest⟩ := List.forall_mem_cons.1 hmem
    obtain ⟨hfirst, hordered⟩ := List.pairwise_cons.1 hordered
    rw [walkEach]
    refine List.pairwise_append.2
      ⟨walkFrom_precedes h tree htree, walkEach_precedes h rest hrest hordered, ?_⟩
    intro place hplace later hlater
    rw [walkEach_eq_flatMap, List.mem_flatMap] at hlater
    obtain ⟨next, hnext, hlater⟩ := hlater
    have hstop := (h.inside (mem_places_of_mem_walkFrom htree hplace)
      (mem_upwards_of_mem_walkFrom hplace)).2
    have hstart := (h.inside (mem_places_of_mem_walkFrom (hrest next hnext) hlater)
      (mem_upwards_of_mem_walkFrom hlater)).1
    exact .inr (hstop.trans ((hfirst next hnext).trans hstart))

end

theorem precedes (h : tree.Arranged) : tree.places.Pairwise Precedes :=
  walkFrom_precedes h tree tree.root_mem_places

theorem heads (h : tree.Arranged) (hfilled : tree.Filled) :
    tree.places.Pairwise Heads := by
  refine h.precedes.imp_of_mem ?_
  intro place later hplace hlater hprecedes
  rcases hprecedes with hup | hapart
  · exact ⟨(h.inside hlater hup).1, fun _ => hup⟩
  · have hnonempty := hfilled place hplace
    exact ⟨by omega, fun hsame => by omega⟩

theorem precedes_total (h : tree.Arranged) {place other : Place} (hplace : place ∈ tree.places)
    (hother : other ∈ tree.places) : place.Precedes other ∨ other.Precedes place := by
  have hsymm : Std.Symm fun place other : Place => place.Precedes other ∨ other.Precedes place :=
    ⟨fun _ _ hor => hor.symm⟩
  have hself : ∀ place ∈ tree.places, place.Precedes place ∨ place.Precedes place :=
    fun place _ => .inl (.inl place.self_mem_upwards)
  have hpairs : tree.places.Pairwise fun place other =>
      place.Precedes other ∨ other.Precedes place := h.precedes.imp fun hprecedes => .inl hprecedes
  exact hpairs.forall_of_forall hself hplace hother

theorem mem_upwards_of_around (h : tree.Arranged) {place other : Place} {byte : Nat}
    (hplace : place ∈ tree.places) (hother : other ∈ tree.places) (hbyte : place.Around byte)
    (hbyte' : other.Around byte) : place ∈ other.upwards ∨ other ∈ place.upwards := by
  obtain ⟨hstart, hstop⟩ := hbyte
  obtain ⟨hstart', hstop'⟩ := hbyte'
  rcases h.precedes_total hplace hother with (hup | hapart) | (hup | hapart)
  · exact .inl hup
  · omega
  · exact .inr hup
  · omega

end Arranged

/-! ## Where a descent ends -/

mutual

/-- A descent ends where it cannot go on, and passes no node by that it goes into. -/
theorem descendFrom_stops (byte : Int) (above : List Tree) (tree : Tree) :
    let place := tree.descendFrom byte above
    descendInto byte place.path place.node.children = none ∧
      (place = ⟨tree, above⟩ ∨ place.node.passedBy byte = false ∧ (place.start : Int) ≤ byte) := by
  match tree with
  | .node label children =>
    rw [descendFrom]
    cases hinto : descendInto byte (.node label children :: above) children with
    | none => exact ⟨hinto, .inl rfl⟩
    | some place =>
      have hstops := descendInto_stops byte _ children place hinto
      exact ⟨hstops.1, .inr hstops.2⟩

theorem descendInto_stops (byte : Int) (above : List Tree) (trees : List Tree) (place : Place)
    (h : descendInto byte above trees = some place) :
    descendInto byte place.path place.node.children = none ∧
      place.node.passedBy byte = false ∧ (place.start : Int) ≤ byte := by
  match trees with
  | [] => simp [descendInto] at h
  | tree :: rest =>
    rw [descendInto] at h
    split at h
    · exact descendInto_stops byte above rest place h
    next hpassed =>
      split at h
      · cases h
      next hstart =>
        have hstops := descendFrom_stops byte above tree
        cases h
        refine ⟨hstops.1, ?_⟩
        rcases hstops.2 with hsame | hdeeper
        · rw [hsame]
          exact ⟨Bool.not_eq_true _ ▸ hpassed, Int.not_lt.1 hstart⟩
        · exact hdeeper

end

/-- Where no child is gone into, each one starts after the byte, or before it and ends there. -/
theorem forall_apart_of_descendInto {byte : Nat} {above trees : List Tree}
    (h : descendInto byte above trees = none) (hspan : ∀ tree ∈ trees, tree.start ≤ tree.stop)
    (hordered : trees.Pairwise fun left right => left.stop ≤ right.start) :
    ∀ tree ∈ trees, (tree.start < byte ∧ tree.stop ≤ byte) ∨ byte < tree.start := by
  induction trees with
  | nil => exact nofun
  | cons first rest ih =>
    obtain ⟨hfirst, hrest⟩ := List.forall_mem_cons.1 hspan
    obtain ⟨hbefore, hordered⟩ := List.pairwise_cons.1 hordered
    rw [descendInto] at h
    split at h
    next hpassed =>
      have hended : first.start < byte ∧ first.stop ≤ byte := by
        unfold passedBy at hpassed
        split at hpassed <;> simp at hpassed <;> omega
      exact List.forall_mem_cons.2 ⟨.inl hended, ih h hrest hordered⟩
    next =>
      split at h
      next hstart =>
        have hstart : byte < first.start := Int.ofNat_lt.1 hstart
        refine List.forall_mem_cons.2 ⟨.inr hstart, ?_⟩
        intro tree htree
        have hlater := hbefore tree htree
        exact .inr (by omega)
      next => cases h

theorem descendInto_eq_none {byte : Nat} {above trees : List Tree}
    (h : ∀ tree ∈ trees, byte < tree.start) : descendInto byte above trees = none := by
  induction trees with
  | nil => rw [descendInto]
  | cons first rest ih =>
    obtain ⟨hfirst, hrest⟩ := List.forall_mem_cons.1 h
    rw [descendInto, ih hrest, if_pos (Int.ofNat_lt.2 hfirst), ite_self]

theorem Arranged.descend_apart (h : tree.Arranged) (byte : Nat) :
    ∀ child ∈ (tree.descend byte).node.children,
      (child.start < byte ∧ child.stop ≤ byte) ∨ byte < child.start := by
  have hmem := tree.descend_mem_places byte
  have hordered := (h _ hmem).ordered
  rw [Place.children, List.pairwise_map] at hordered
  have hspan : ∀ child ∈ (tree.descend byte).node.children, child.start ≤ child.stop := by
    intro child hchild
    exact (h _ (child_mem_places hmem (List.mem_map_of_mem hchild))).span
  exact forall_apart_of_descendInto (descendFrom_stops byte [] tree).1 hspan hordered

theorem Arranged.descend_eq_root_iff (h : tree.Arranged) {byte : Nat} (hle : byte ≤ tree.start) :
    tree.descend byte = ⟨tree, []⟩ ↔ ∀ child ∈ tree.children, child.start ≠ byte := by
  constructor
  · intro hsame child hchild
    have hapart := h.descend_apart byte
    rw [hsame] at hapart
    have hcases := hapart child hchild
    omega
  · intro hnone
    have hafter : ∀ child ∈ tree.children, byte < child.start := by
      intro child hchild
      have hin : tree.start ≤ child.start :=
        ((h _ tree.root_mem_places).nested _ (List.mem_map_of_mem hchild)).1
      have hne := hnone child hchild
      omega
    rw [descend, descendFrom_eq, descendInto_eq_none hafter, Option.getD_none]

theorem Filled.descend_around (hfilled : tree.Filled) {byte : Nat}
    (hroot : (⟨tree, []⟩ : Place).Around byte) : (tree.descend byte).Around byte := by
  rcases (descendFrom_stops byte [] tree).2 with hsame | ⟨hpassed, hstart⟩
  · rw [descend, hsame]
    exact hroot
  · have hnonempty : (tree.descendFrom byte []).node.start ≠ (tree.descendFrom byte []).node.stop :=
      Nat.ne_of_lt (hfilled _ (tree.descend_mem_places byte))
    rw [passedBy, if_neg hnonempty, decide_eq_false_iff_not] at hpassed
    exact ⟨Int.ofNat_le.1 hstart, Int.ofNat_lt.1 (Int.not_le.1 hpassed)⟩

/-- The descent ends at the lowest place around a byte: all places around it are on the way up from
there. -/
theorem Arranged.mem_upwards_descend (h : tree.Arranged) (hfilled : tree.Filled) {byte : Nat}
    (hroot : (⟨tree, []⟩ : Place).Around byte) {place : Place} (hplace : place ∈ tree.places)
    (hbyte : place.Around byte) : place ∈ (tree.descend byte).upwards := by
  have hmem := tree.descend_mem_places byte
  have haround := hfilled.descend_around hroot
  rcases h.mem_upwards_of_around hplace hmem hbyte haround with hup | hdown
  · exact hup
  · -- A place further down would be in a child around the byte, and there is none.
    by_cases hsame : tree.descend byte = place
    · rw [hsame]
      exact place.self_mem_upwards
    · obtain ⟨child, hchild, hup⟩ := exists_child_of_mem_upwards hplace hdown hsame
      obtain ⟨hstart, hstop⟩ := h.around_of_mem_upwards hplace hup hbyte
      obtain ⟨node, hnode, rfl⟩ := List.mem_map.1 hchild
      rcases h.descend_apart byte node hnode with ⟨-, hended⟩ | hafter
      · exact absurd hstop (Nat.not_lt.2 hended)
      · exact absurd hstart (Nat.not_le.2 hafter)

/-- The way up from where a descent ends is made of the places around the byte. -/
theorem Arranged.mem_upwards_descend_iff (h : tree.Arranged) (hfilled : tree.Filled) {byte : Nat}
    (hroot : (⟨tree, []⟩ : Place).Around byte) {place : Place} :
    place ∈ (tree.descend byte).upwards ↔ place ∈ tree.places ∧ place.Around byte := by
  have hmem := tree.descend_mem_places byte
  constructor
  · intro hup
    have haround := h.around_of_mem_upwards hmem hup (hfilled.descend_around hroot)
    exact ⟨mem_places_of_mem_upwards hmem hup, haround⟩
  · rintro ⟨hplace, haround⟩
    exact h.mem_upwards_descend hfilled hroot hplace haround

theorem Arranged.mem_upwards_descend_of_start (h : tree.Arranged) (hfilled : tree.Filled)
    {byte : Nat} (hroot : (⟨tree, []⟩ : Place).Around byte) {place : Place}
    (hplace : place ∈ tree.places) (hstart : place.start = byte) :
    place ∈ (tree.descend byte).upwards := by
  have hnonempty := hfilled place hplace
  exact h.mem_upwards_descend hfilled hroot hplace ⟨by omega, by omega⟩

/-! ## Where a climb ends -/

/-- A climb stays on the way up, does not come to the root from below, and ends where the parent is
the root or does not start at the byte. -/
theorem climb_stops (place : Place) (byte : Int) :
    place.climb byte ∈ place.upwards ∧
      (place.above ≠ [] → (place.climb byte).above ≠ []) ∧
      ∀ parent, (place.climb byte).parent? = some parent →
        parent.above = [] ∨ (parent.start : Int) ≠ byte := by
  obtain ⟨node, above⟩ := place
  induction above generalizing node with
  | nil => exact ⟨self_mem_upwards _, fun h => h, nofun⟩
  | cons parent above ih =>
    cases above with
    | nil =>
      refine ⟨self_mem_upwards _, fun h => h, ?_⟩
      intro top htop
      cases htop
      exact .inl rfl
    | cons next above =>
      rw [Place.climb, Place.climbFrom]
      split
      · obtain ⟨hup, hbelow, hends⟩ := ih parent
        exact ⟨List.mem_cons_of_mem _ hup, fun _ => hbelow (by simp), hends⟩
      next hstart =>
        refine ⟨self_mem_upwards _, fun h => h, ?_⟩
        intro top htop
        cases htop
        exact .inr hstart

theorem climb_eq_root_iff {place : Place} (h : place ∈ tree.places) (byte : Int) :
    place.climb byte = ⟨tree, []⟩ ↔ place = ⟨tree, []⟩ := by
  constructor
  · intro hroot
    by_contra hne
    have hbelow : place.above ≠ [] := fun hnil => hne (eq_root_of_above_eq_nil h hnil)
    have hstays := (climb_stops place byte).2.1 hbelow
    rw [hroot] at hstays
    exact hstays rfl
  · rintro rfl
    rfl

theorem exists_parent {place : Place} (h : place.above ≠ []) :
    ∃ parent, place.parent? = some parent := by
  obtain ⟨node, above⟩ := place
  cases above with
  | nil => exact absurd rfl h
  | cons parent above => exact ⟨⟨parent, above⟩, rfl⟩

namespace Arranged

variable {place : Place} {byte : Nat}

/-- A climb from a place below the root that starts at the byte stays below the root and at that
start, and ends where the parent is the root or starts before. -/
theorem climb_parent (h : tree.Arranged) (hplace : place ∈ tree.places)
    (hstart : place.start = byte) (hbelow : place.above ≠ []) :
    (place.climb byte).start = byte ∧
      ∃ parent, (place.climb byte).parent? = some parent ∧
        (parent = ⟨tree, []⟩ ∨ parent.start < byte) := by
  obtain ⟨-, hstays, hends⟩ := climb_stops place byte
  have hnode := climb_mem_places hplace byte
  have hsame : (place.climb byte).start = byte := by
    rcases start_climb place byte with hsame | hbyte
    · exact hsame.trans hstart
    · exact Int.ofNat_inj.1 hbyte
  obtain ⟨parent, hparent⟩ := exists_parent (hstays hbelow)
  obtain ⟨hmem, hchild⟩ := parent_mem_places hnode hparent
  refine ⟨hsame, parent, hparent, ?_⟩
  rcases hends parent hparent with hnil | hother
  · exact .inl (eq_root_of_above_eq_nil hmem hnil)
  · have hle := ((h parent hmem).nested _ hchild).1
    have hne : parent.start ≠ byte := fun heq => hother (congrArg Nat.cast heq)
    exact .inr (by omega)

/-- On the way up to the root, the place where a climb ends is above all others that start at the
byte. -/
theorem climb_mem_upwards (h : tree.Arranged) (hplace : place ∈ tree.places)
    (hstart : place.start = byte) (hbelow : place.above ≠ []) {other : Place}
    (hother : other ∈ place.upwards) (hroot : other ≠ ⟨tree, []⟩) (hbyte : other.start = byte) :
    place.climb byte ∈ other.upwards := by
  obtain ⟨-, parent, hparent, hhigher⟩ := h.climb_parent hplace hstart hbelow
  have hmem := (parent_mem_places (climb_mem_places hplace byte) hparent).1
  rcases mem_upwards_total (climb_stops place byte).1 hother with hover | hunder
  · exact hover
  · by_cases hsame : other = place.climb byte
    · rw [← hsame]
      exact other.self_mem_upwards
    · -- A place further up would be the parent or above that, and so start before the byte.
      have habove := mem_upwards_parent hparent hunder hsame
      rcases hhigher with rfl | hlt
      · exact absurd (List.mem_singleton.1 habove) hroot
      · have hle := (h.inside hmem habove).1
        omega

end Arranged

end Tree

end TreeRules
