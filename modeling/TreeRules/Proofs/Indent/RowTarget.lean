import Mathlib
import TreeRules.Proofs.Source.Rows
import TreeRules.Proofs.Tree.Order
import TreeRules.Target

/-! # The node with which a row starts

The target of a row is found by a descent to its first byte that is no margin and a climb from
there. Around that byte the descent comes to the lowest node, and the climb to the largest one below
the root that starts with it. Before the first node there is nothing to come to: the root itself is
then taken for the node of the row, although it starts later.
-/
namespace TreeRules.Target

variable {doc : Document} {row : Nat}

theorem ofRow_natCast (hrow : row < doc.source.rows) :
    ofRow doc row = .ok (ofRowAt doc row) := by
  have hinside : (0 : Int) ≤ row ∧ (row : Int) < doc.source.rows := by omega
  rw [ofRow, Source.checkRow, if_pos hinside]
  rfl

theorem ofRowAt_of_le_start (hblank : doc.source.isBlank = false)
    (hinked : doc.source.rowInk row ≠ doc.source.rowStop row)
    (hstart : doc.source.rowInk row ≤ (doc.tree.descend (doc.source.rowInk row)).start) :
    ofRowAt doc row =
      let node := (doc.tree.descend (doc.source.rowInk row)).climb (doc.source.rowInk row)
      ⟨some node, node.parent?, some (doc.source.rowInk row), some row⟩ := by
  have hnot : ¬(doc.source.rowInk row = doc.source.rowStop row ∨
      (doc.tree.descend (doc.source.rowInk row)).start < doc.source.rowInk row) :=
    not_or.2 ⟨hinked, Nat.not_lt.2 hstart⟩
  simp only [ofRowAt, hblank, Bool.false_eq_true, if_false, if_neg hnot]

theorem ofRowAt_of_start_lt (hblank : doc.source.isBlank = false)
    (hstart : (doc.tree.descend (doc.source.rowInk row)).start < doc.source.rowInk row) :
    ofRowAt doc row = ⟨none, some (doc.tree.descend (doc.source.rowInk row)),
      some (doc.source.rowInk row), some row⟩ := by
  simp only [ofRowAt, hblank, Bool.false_eq_true, if_false, if_pos (Or.inr hstart)]

/-- A row has a node where the descent ends at a node that does not start before the text of the
row; the climb from there leads to it. -/
theorem node_ofRowAt_iff {node : Place} : (ofRowAt doc row).node = some node ↔
    doc.source.isBlank = false ∧ doc.source.rowInk row ≠ doc.source.rowStop row ∧
      doc.source.rowInk row ≤ (doc.tree.descend (doc.source.rowInk row)).start ∧
      (doc.tree.descend (doc.source.rowInk row)).climb (doc.source.rowInk row) = node := by
  constructor
  · intro h
    unfold ofRowAt at h
    dsimp only at h
    split at h
    · cases h
    next hblank =>
      split at h
      · cases h
      next hnot =>
        obtain ⟨hinked, hstart⟩ := not_or.1 hnot
        exact ⟨Bool.not_eq_true _ ▸ hblank, hinked, Nat.not_lt.1 hstart, Option.some.inj h⟩
  · rintro ⟨hblank, hinked, hstart, rfl⟩
    rw [ofRowAt_of_le_start hblank hinked hstart]

/-- A target has a node only where the descent ends at a node that starts with the text. The node is
then reached by the climb from there. -/
theorem ofRowAt_inv {node : Place} (h : (ofRowAt doc row).node = some node) :
    doc.source.isBlank = false ∧
      doc.source.rowInk row ≤ (doc.tree.descend (doc.source.rowInk row)).start ∧
      (doc.tree.descend (doc.source.rowInk row)).climb (doc.source.rowInk row) = node ∧
      ofRowAt doc row = ⟨some node, node.parent?, some (doc.source.rowInk row), some row⟩ := by
  obtain ⟨hblank, hinked, hstart, rfl⟩ := node_ofRowAt_iff.1 h
  exact ⟨hblank, hstart, rfl, ofRowAt_of_le_start hblank hinked hstart⟩

/-! ## The largest node -/

theorem ne_root_of_above_ne_nil {place : Place} (h : place.above ≠ []) : place ≠ doc.root := by
  rintro rfl
  exact h rfl

/-- The climb from the lowest node around a byte comes to the one below the root that starts at the
byte and is above all others that do. -/
theorem climb_largest {tree : Tree} {byte : Nat} (harranged : tree.Arranged)
    (hfilled : tree.Filled) (hroot : (⟨tree, []⟩ : Place).Around byte)
    (hstarts : ∃ place ∈ tree.places, place ≠ ⟨tree, []⟩ ∧ place.start = byte) :
    let node := (tree.descend byte).climb byte
    (tree.descend byte).start = byte ∧ node.start = byte ∧
      (∀ other ∈ tree.places, other ≠ ⟨tree, []⟩ → other.start = byte → node ∈ other.upwards) ∧
      ∃ parent, node.parent? = some parent ∧ (parent = ⟨tree, []⟩ ∨ parent.start < byte) := by
  have hmem := tree.descend_mem_places byte
  obtain ⟨place, hplace, hne, hstart⟩ := hstarts
  have hway := harranged.mem_upwards_descend_of_start hfilled hroot hplace hstart
  have hlow : (tree.descend byte).start = byte := by
    have hin := (harranged.inside hmem hway).1
    have hle := (hfilled.descend_around hroot).1
    omega
  have hbelow : (tree.descend byte).above ≠ [] := by
    intro hnil
    rw [Tree.eq_root_of_above_eq_nil hmem hnil] at hway
    exact hne (List.mem_singleton.1 hway)
  obtain ⟨hnode, hparent⟩ := harranged.climb_parent hmem hlow hbelow
  refine ⟨hlow, hnode, ?_, hparent⟩
  intro other hother hotherne hotherstart
  have hup := harranged.mem_upwards_descend_of_start hfilled hroot hother hotherstart
  exact harranged.climb_mem_upwards hmem hlow hbelow hup hotherne hotherstart

/-- A row with text inside the root of a tree in order that has no empty nodes. -/
structure InRoot (doc : Document) (row : Nat) : Prop where
  arranged : doc.tree.Arranged
  filled : doc.tree.Filled
  row_lt : row < doc.source.rows
  inked : doc.source.rowInk row ≠ doc.source.rowStop row
  around : doc.root.Around (doc.source.rowInk row)

/-- In a row with text inside the root, the target has the node below the root that starts with the
text and is above all others that do; the parent of that is the root, or starts before the text and
then in an earlier row or in the margin. Where no node starts with the text, the target has no node,
and its parent is the lowest node around. -/
theorem ofRow_largest {doc : Document} {row : Nat} (h : InRoot doc row)
    (hblank : doc.source.isBlank = false) :
    ∃ target, ofRow doc row = .ok target ∧
      ((∃ place ∈ doc.tree.places, place ≠ doc.root ∧ place.start = doc.source.rowInk row) →
        ∃ node parent, target.node = some node ∧ target.parent = some parent ∧
          node ∈ doc.tree.places ∧ node.start = doc.source.rowInk row ∧
          (∀ other ∈ doc.tree.places, other ≠ doc.root → other.start = doc.source.rowInk row →
            node ∈ other.upwards) ∧
          node.parent? = some parent ∧
          (parent = doc.root ∨ parent.start < doc.source.rowInk row ∧
            (doc.rowOf parent < row ∨ doc.source.rowStart row ≤ parent.start))) ∧
      ((∀ place ∈ doc.tree.places, place.start ≠ doc.source.rowInk row) →
        target.node = none ∧ ∃ parent, target.parent = some parent ∧
          parent ∈ doc.tree.places ∧ parent.Around (doc.source.rowInk row) ∧
          ∀ other ∈ doc.tree.places, other.Around (doc.source.rowInk row) →
            other ∈ parent.upwards) := by
  have hmem := doc.tree.descend_mem_places (doc.source.rowInk row)
  refine ⟨ofRowAt doc row, ofRow_natCast h.row_lt, ?_, ?_⟩
  · intro hstarts
    obtain ⟨hlow, hstart, hall, parent, hparent, hhigher⟩ :=
      climb_largest h.arranged h.filled h.around hstarts
    have hnode := Tree.climb_mem_places hmem (doc.source.rowInk row)
    rw [ofRowAt_of_le_start hblank h.inked hlow.ge]
    refine ⟨_, parent, rfl, hparent, hnode, hstart, hall, hparent, ?_⟩
    rcases hhigher with hsame | hlt
    · exact .inl hsame
    · refine .inr ⟨hlt, ?_⟩
      by_cases hmargin : doc.source.rowStart row ≤ parent.start
      · exact .inr hmargin
      · exact .inl (Source.rowOf_lt_of_lt_rowStart h.row_lt (Nat.lt_of_not_le hmargin))
  · intro hnone
    have haround := h.filled.descend_around h.around
    have hstart : (doc.tree.descend (doc.source.rowInk row)).start < doc.source.rowInk row :=
      Nat.lt_of_le_of_ne haround.1 (hnone _ hmem)
    rw [ofRowAt_of_start_lt hblank hstart]
    exact ⟨rfl, _, rfl, hmem, haround, fun other hother hbyte =>
      h.arranged.mem_upwards_descend h.filled h.around hother hbyte⟩

/-! ### Rows with and without a largest node -/

/-- A document in which no query captures anything. -/
def plainDocument (bytes : List UInt8) (tree : Tree) : Document where
  language := "plain"
  source := Source.ofBytes bytes
  tree := tree
  captures _ _ := []
  toolkit := ⟨fun _ => .ok ⟨fun _ => true, fun _ => true⟩, fun _ _ => .ok []⟩

def callTree : Tree :=
  .node ⟨0, "module", 0, 8, true, none, false⟩
    [.node ⟨1, "call", 0, 8, true, none, false⟩
      [.node ⟨2, "name", 0, 1, true, none, false⟩ [],
        .node ⟨3, "arguments", 1, 8, true, none, false⟩
          [.node ⟨4, "member", 4, 7, true, none, false⟩
            [.node ⟨5, "name", 4, 5, true, none, false⟩ [],
              .node ⟨6, "name", 6, 7, true, none, false⟩ []]]]]

/-- The rows `f(` and ` x.y)`. -/
def callDocument : Document := plainDocument [102, 40, 10, 32, 120, 46, 121, 41] callTree

theorem ofRow_largest_call : InRoot callDocument 1 ∧ callDocument.source.isBlank = false ∧
    ∃ target node parent, ofRow callDocument 1 = .ok target ∧ target.node = some node ∧
      target.parent = some parent ∧ node.start = 4 ∧ parent.start < 4 := by
  have h : InRoot callDocument 1 := ⟨by decide, by decide, by decide, by decide, by decide⟩
  have hblank : callDocument.source.isBlank = false := by decide
  obtain ⟨target, htarget, hlargest, -⟩ := ofRow_largest h hblank
  have hstarts : ∃ place ∈ callTree.places, place.above ≠ [] ∧ place.start = 4 := by decide
  obtain ⟨place, hplace, hbelow, hstart⟩ := hstarts
  obtain ⟨node, parent, hnode, hparent, -, hfour, -, -, hhigher⟩ :=
    hlargest ⟨place, hplace, ne_root_of_above_ne_nil hbelow, hstart⟩
  refine ⟨h, hblank, target, node, parent, htarget, hnode, hparent, hfour, ?_⟩
  rcases hhigher with rfl | hlt
  · decide
  · exact hlt.1

def tabTree : Tree :=
  .node ⟨0, "module", 0, 2, true, none, false⟩ [.node ⟨1, "word", 0, 1, true, none, false⟩ []]

/-- A row with a vertical tab, which is white space but no margin. -/
def tabDocument : Document := plainDocument [11, 10] tabTree

def groupTree : Tree :=
  .node ⟨0, "module", 0, 6, true, none, false⟩
    [.node ⟨1, "word", 0, 1, true, none, false⟩ [],
      .node ⟨2, "group", 3, 5, true, none, false⟩ [.node ⟨3, "word", 4, 5, true, none, false⟩ []]]

/-- The rows `a` and `  b`, where a group starts one blank before the word in it. -/
def groupDocument : Document := plainDocument [97, 10, 32, 32, 98, 10] groupTree

/-- In a source of white space the row has no node, although one starts with it. A parent that
starts in the margin is in the same row. -/
theorem ofRow_largest_limits :
    (InRoot tabDocument 0 ∧
        (∃ place ∈ tabTree.places, place ≠ tabDocument.root ∧
          place.start = tabDocument.source.rowInk 0) ∧
        ∃ target, ofRow tabDocument 0 = .ok target ∧ target.node = none) ∧
      InRoot groupDocument 1 ∧
        ∃ target node parent, ofRow groupDocument 1 = .ok target ∧ target.node = some node ∧
          target.parent = some parent ∧ node.start = groupDocument.source.rowInk 1 ∧
          parent ≠ groupDocument.root ∧ groupDocument.rowOf parent = 1 := by
  have htab : InRoot tabDocument 0 := ⟨by decide, by decide, by decide, by decide, by decide⟩
  have hgroup : InRoot groupDocument 1 := ⟨by decide, by decide, by decide, by decide, by decide⟩
  have hstarts : ∃ place ∈ tabTree.places, place.above ≠ [] ∧ place.start = 0 := by decide
  obtain ⟨place, hplace, hbelow, hstart⟩ := hstarts
  refine ⟨⟨htab, ⟨place, hplace, ne_root_of_above_ne_nil hbelow, hstart⟩, _, rfl, rfl⟩,
    hgroup, _, _, _, rfl, rfl, rfl, rfl, ne_root_of_above_ne_nil (by decide), ?_⟩
  rw [Document.rowOf, Source.rowOf_natCast]
  decide

/-! ## The root as the node of a row -/

/-- The node of a row starts with its text and is below the root, unless it is the root itself. That
happens in the rows with text that the root does not start before and no child of the root starts
with. -/
theorem ofRow_starts {doc : Document} {row : Nat} (harranged : doc.tree.Arranged)
    (hrow : row < doc.source.rows) :
    ∃ target, ofRow doc row = .ok target ∧
      (∀ node, target.node = some node → node ≠ doc.root →
        node ∈ doc.tree.places ∧ target.ink = some (node.start : Int)) ∧
      (target.node = some doc.root ↔
        doc.source.isBlank = false ∧ doc.source.rowInk row ≠ doc.source.rowStop row ∧
          doc.source.rowInk row ≤ doc.tree.start ∧
          ∀ child ∈ doc.tree.children, child.start ≠ doc.source.rowInk row) := by
  have hmem := doc.tree.descend_mem_places (doc.source.rowInk row)
  have hclimb := Tree.climb_eq_root_iff hmem (doc.source.rowInk row)
  refine ⟨ofRowAt doc row, ofRow_natCast hrow, ?_, ?_⟩
  · intro node hnode hne
    obtain ⟨hblank, hinked, hle, rfl⟩ := node_ofRowAt_iff.1 hnode
    refine ⟨Tree.climb_mem_places hmem _, ?_⟩
    rw [ofRowAt_of_le_start hblank hinked hle]
    have hlow : (doc.tree.descend (doc.source.rowInk row)).start = doc.source.rowInk row := by
      rcases (Tree.descendFrom_stops (doc.source.rowInk row) [] doc.tree).2 with hsame | hreached
      · exact absurd (hclimb.2 hsame) hne
      · exact Nat.le_antisymm (Int.ofNat_le.1 hreached.2) hle
    rcases Tree.start_climb (doc.tree.descend (doc.source.rowInk row)) (doc.source.rowInk row) with
      hsame | hbyte
    · rw [hsame, hlow]
    · rw [hbyte]
  · rw [node_ofRowAt_iff, Document.root, hclimb]
    constructor
    · rintro ⟨hblank, hinked, hle, hroot⟩
      rw [hroot] at hle
      exact ⟨hblank, hinked, hle, (harranged.descend_eq_root_iff hle).1 hroot⟩
    · rintro ⟨hblank, hinked, hle, hnone⟩
      have hroot := (harranged.descend_eq_root_iff hle).2 hnone
      refine ⟨hblank, hinked, ?_, hroot⟩
      rw [hroot]
      exact hle

/-! ### A row before the root -/

def markTree : Tree :=
  .node ⟨0, "module", 3, 13, true, none, false⟩
    [.node ⟨1, "expression_statement", 3, 8, true, none, false⟩
      [.node ⟨2, "assignment", 3, 8, true, none, false⟩
        [.node ⟨3, "identifier", 3, 4, true, some "left", false⟩ [],
          .node ⟨4, "=", 5, 6, false, none, false⟩ [],
          .node ⟨5, "integer", 7, 8, true, some "right", false⟩ []]],
      .node ⟨6, "expression_statement", 11, 12, true, none, false⟩
        [.node ⟨7, "identifier", 11, 12, true, none, false⟩ []]]

/-- The rows `x = 1` and `  y` behind a byte order mark, which no node covers. -/
def markDocument : Document :=
  plainDocument [239, 187, 191, 120, 32, 61, 32, 49, 10, 32, 32, 121, 10] markTree

theorem ofRow_starts_mark : markDocument.tree.Arranged ∧ 1 < markDocument.source.rows ∧
    ∃ target, ofRow markDocument 1 = .ok target ∧ target.node ≠ some markDocument.root ∧
      ∀ node, target.node = some node → target.ink = some (node.start : Int) := by
  have harranged : markDocument.tree.Arranged := by decide
  have hrow : 1 < markDocument.source.rows := by decide
  obtain ⟨target, htarget, hstarts, hroot⟩ := ofRow_starts harranged hrow
  have hbelow : target.node ≠ some markDocument.root := by
    intro hnode
    exact absurd (hroot.1 hnode).2.2.1 (by decide)
  refine ⟨harranged, hrow, target, htarget, hbelow, ?_⟩
  intro node hnode
  have hne : node ≠ markDocument.root := by
    rintro rfl
    exact hbelow hnode
  exact (hstarts node hnode hne).2

/-- The first row has the root for its node, which starts behind the mark. -/
theorem ofRow_before_root : markTree.Arranged ∧
    ∃ target, ofRow markDocument 0 = .ok target ∧ target.node = some markDocument.root ∧
      target.ink = some 0 ∧ markDocument.root.start = 3 :=
  ⟨by decide, _, rfl, rfl, rfl, rfl⟩

end TreeRules.Target
