import Mathlib
import TreeRules.Indent.Line
import TreeRules.Proofs.FirstMatch
import TreeRules.Proofs.Indent.Reindentation
import TreeRules.Proofs.Indent.RowTarget
import TreeRules.Proofs.Predicate.Sight

/-! # Indentation is settled in one step

A row that was moved to the column its table asks for is asked to stay there. The blanks in front of
the text of a row decide nothing: the descent and the climb to the target of the row take the same
way in the moved tree, the predicates see the same target, and the anchors that look back only see
what stands in front of the row.
-/
namespace TreeRules

/-- Anchors that look at nothing from the start of the row on, as long as the parent starts before
the row. -/
def Anchor.looksBack : Anchor → Bool
  | .margin | .parentLine | .standaloneParent | .grandparent | .commentText | .parent
  | .previousLine => true
  | .firstSibling | .previousSibling | .memberChain => false

/-- No rule asks for queries, and all anchors look back. -/
def Table.LooksBack (table : Table IndentAction) : Prop :=
  ∀ rule ∈ table.rules, rule.predicate.queryFree ∧ rule.action.anchor.looksBack

/-! ## Rows before a row -/

theorem CommentStart.marker_ofLine_append {margin : List Char}
    (h : ∀ c ∈ margin, isSpace c = true) (text : List Char) :
    (ofLine (margin ++ text)).marker = (ofLine text).marker := by
  simp only [ofLine, List.dropWhile_append_of_pos h]

/-- The marker of a row does not depend on the spaces and tabs in front of it. -/
theorem Column.marker_commentStart_of_split {doc : Document} {row : Nat}
    {front margin rest : List UInt8} (h : doc.source.RowSplit row front margin rest) :
    (commentStart doc row).marker =
      (CommentStart.ofLine (Utf8.decode (rest.takeWhile (· != lineFeed)))).marker := by
  have hspaces : ∀ c ∈ margin.map (fun byte => Char.ofNat byte.toNat),
      CommentStart.isSpace c = true := by
    intro c hc
    obtain ⟨byte, hbyte, rfl⟩ := List.mem_map.1 hc
    exact h.forall_margin (P := fun byte => CommentStart.isSpace (Char.ofNat byte.toNat) = true)
      (by decide) (by decide) byte hbyte
  rw [commentStart, h.textOf_row, CommentStart.marker_ofLine_append hspaces]

theorem Column.rowBefore?_lt {doc : Document} {row before : Nat}
    (h : rowBefore? doc row = some before) : before < row := by
  induction row with
  | zero => cases h
  | succ row ih =>
    rw [rowBefore?] at h
    split at h
    · exact Nat.lt_succ_of_lt (ih h)
    · cases h
      exact Nat.lt_succ_self _

/-! ## Rows that can be moved -/

/-- A row with text behind spaces and tabs, whose target has a node and a parent in an earlier row,
in an orderly tree without nodes that start or end in the margin of the row. -/
structure Document.Movable (doc : Document) (row : Nat) (node parent : Place) : Prop where
  orderly : doc.tree.Orderly
  row_lt : row < doc.source.rows
  inked : doc.source.rowInk row ≠ doc.source.rowStop row
  spaces : ∀ byte ∈ (doc.source.bytes.take (doc.source.rowInk row)).drop (doc.source.rowStart row),
    byte = 32 ∨ byte = 9
  no_start : ∀ place ∈ doc.tree.places,
    ¬(doc.source.rowStart row ≤ place.start ∧ place.start < doc.source.rowInk row)
  no_stop : ∀ place ∈ doc.tree.places,
    ¬(doc.source.rowStart row < place.stop ∧ place.stop < doc.source.rowInk row)
  has_node : (Target.ofRowAt doc row).node = some node
  has_parent : (Target.ofRowAt doc row).parent = some parent
  parent_above : doc.rowOf parent < row

namespace Document.Movable

variable {doc : Document} {row : Nat} {node parent : Place}

theorem split (h : doc.Movable row node parent) :
    doc.source.RowSplit row (doc.source.bytes.take (doc.source.rowStart row))
      ((doc.source.bytes.take (doc.source.rowInk row)).drop (doc.source.rowStart row))
      (doc.source.bytes.drop (doc.source.rowInk row)) :=
  Source.rowSplit_of_inked h.row_lt h.inked h.spaces

theorem tracks (h : doc.Movable row node parent) (column : Nat) {place : Place}
    (hplace : place ∈ doc.tree.places) :
    Tree.Tracks (doc.source.moved row column) (doc.source.rowInk row)
      (doc.source.rowStart row + column) place.node :=
  Source.tracks_moved h.row_lt column (h.orderly.filled place hplace) (h.no_start place hplace)
    (h.no_stop place hplace)

theorem climb_eq (h : doc.Movable row node parent) :
    (doc.tree.descend (doc.source.rowInk row)).climb (doc.source.rowInk row) = node :=
  (Target.ofRowAt_inv h.has_node).2.2.1

theorem node_parent (h : doc.Movable row node parent) : node.parent? = some parent := by
  have hparent := h.has_parent
  rw [(Target.ofRowAt_inv h.has_node).2.2.2] at hparent
  exact hparent

theorem target_eq (h : doc.Movable row node parent) : Target.ofRowAt doc row =
    ⟨some node, some parent, some (doc.source.rowInk row), some row⟩ := by
  rw [(Target.ofRowAt_inv h.has_node).2.2.2, h.node_parent]

theorem node_mem (h : doc.Movable row node parent) : node ∈ doc.tree.places :=
  h.climb_eq ▸ Tree.climb_mem_places (doc.tree.descend_mem_places _) _

theorem le_node_start (h : doc.Movable row node parent) : doc.source.rowInk row ≤ node.start := by
  have hstart := (Target.ofRowAt_inv h.has_node).2.1
  rw [← h.climb_eq]
  rcases Tree.start_climb (doc.tree.descend (doc.source.rowInk row)) (doc.source.rowInk row) with
    hsame | hink
  · exact hsame ▸ hstart
  · exact (Int.ofNat_inj.1 hink).ge

theorem parent_mem (h : doc.Movable row node parent) : parent ∈ doc.tree.places :=
  (Tree.parent_mem_places h.node_mem h.node_parent).1

theorem parent_start_lt (h : doc.Movable row node parent) :
    parent.start < doc.source.rowStart row :=
  Source.lt_rowStart_of_rowOf_lt h.row_lt h.parent_above

variable (column : Nat) (captures : String → Option (Int × Int) → List (String × List Place))

/-- Text behind the margin moves along. -/
theorem textOf_relocate (h : doc.Movable row node parent) {place : Place}
    (hplace : place ∈ doc.tree.places) (hstart : doc.source.rowInk row ≤ place.start) :
    (doc.reindent row column captures).textOf (place.relocate (doc.source.moved row column)) =
      doc.textOf place := by
  have hstop := hstart.trans (h.orderly.filled place hplace).le
  have htext := h.split.textOf_moved column hstart hstop
  rw [Document.textOf, Place.start_relocate, Place.stop_relocate]
  exact htext

/-- The target moves along. -/
theorem target_reindent (h : doc.Movable row node parent) :
    Target.ofRowAt (doc.reindent row column captures) row =
      ⟨some (node.relocate (doc.source.moved row column)),
        some (parent.relocate (doc.source.moved row column)),
        some (doc.source.rowStart row + column : Nat), some row⟩ := by
  have hsplit := h.split.reindent column
  have hink : (doc.reindent row column captures).source.rowInk row =
      doc.source.rowStart row + column := h.split.rowInk_reindent column
  -- On the way down and up, every node is asked how it stands to the text, and answers as before.
  have hdescend : (doc.reindent row column captures).tree.descend
      (doc.source.rowStart row + column : Nat) =
        (doc.tree.descend (doc.source.rowInk row)).relocate (doc.source.moved row column) :=
    Tree.descend_relocate fun place hplace => h.tracks column hplace
  have hmem := doc.tree.descend_mem_places (doc.source.rowInk row)
  obtain ⟨hblank, hstart, -, -⟩ := Target.ofRowAt_inv h.has_node
  have hclimb : ((doc.tree.descend (doc.source.rowInk row)).relocate
      (doc.source.moved row column)).climb (doc.source.rowStart row + column : Nat) =
        node.relocate (doc.source.moved row column) := by
    rw [Tree.climb_relocate, h.climb_eq]
    intro above habove
    obtain ⟨higher, hhigher, rfl⟩ := Tree.exists_place_of_mem_above hmem habove
    exact h.tracks column hhigher
  have hblank' : (doc.reindent row column captures).source.isBlank = false := by
    rw [h.split.isBlank] at hblank
    exact hsplit.isBlank.trans hblank
  rw [Target.ofRowAt_of_le_start hblank' hsplit.rowInk_ne_rowStop, hink, hdescend]
  · dsimp only
    rw [hclimb, Place.parent?_relocate, h.node_parent]
    rfl
  · rw [hink, hdescend, Place.start_relocate]
    have htrack := (h.tracks column hmem).start_lt
    change (doc.source.moved row column (doc.tree.descend (doc.source.rowInk row)).start < _ ↔
      (doc.tree.descend (doc.source.rowInk row)).start < _) at htrack
    omega

/-- What a pattern for lines sees starts behind the margin. -/
theorem lineHolds_reindent (h : doc.Movable row node parent) (pattern : Pattern) :
    Predicate.lineHolds (doc.reindent row column captures) pattern
      (doc.source.rowStart row + column : Nat) row =
        Predicate.lineHolds doc pattern (doc.source.rowInk row) row := by
  have hink : doc.source.moved row column (doc.source.rowInk row) =
      doc.source.rowStart row + column := by
    rw [Source.moved_of_le (Nat.le_refl _), Nat.sub_self, Nat.add_zero]
  have hstop : doc.source.rowInk row ≤ doc.source.rowStop row := by
    rw [h.split.rowInk, h.split.rowStop]
    exact Nat.le_add_right _ _
  have htext := h.split.textOf_moved column (Nat.le_refl _) hstop
  have hnew : (doc.reindent row column captures).source.lineStop row =
      .ok (doc.source.moved row column (doc.source.rowStop row) : Int) := by
    rw [Source.lineStop_natCast]
    exact congrArg (fun stop : Nat => Except.ok (stop : Int)) (h.split.rowStop_moved column)
  rw [hink] at htext
  rw [Predicate.lineHolds, Predicate.lineHolds, hnew, Source.lineStop_natCast]
  exact congrArg (fun text => Except.ok (pattern.matchesStart text)) htext

/-- The moved target looks like the target. -/
theorem alike (h : doc.Movable row node parent) :
    Target.Alike doc (doc.reindent row column captures) (Target.ofRowAt doc row)
      (Target.ofRowAt (doc.reindent row column captures) row) := by
  have hchild : ∀ name, ((node.relocate (doc.source.moved row column)).childAt? name).map
      (doc.reindent row column captures).textOf = (node.childAt? name).map doc.textOf := by
    intro name
    rw [Place.childAt?_relocate]
    cases hfind : node.childAt? name with
    | none => rfl
    | some child =>
      have hmem : child ∈ node.children := List.mem_of_find?_eq_some hfind
      have hstart := (h.orderly.nested node h.node_mem child hmem).1
      exact congrArg some (h.textOf_relocate column captures
        (Tree.child_mem_places h.node_mem hmem) (h.le_node_start.trans hstart))
  rw [h.target_eq, h.target_reindent]
  exact {
    node := congrArg some node.kind_relocate
    parent := congrArg some parent.kind_relocate
    grandparent := by
      simp only [Target.grandparent, Option.bind_some, Place.parent?_relocate, Option.map_map]
      congr 1
      funext place
      exact place.kind_relocate
    field := by
      simp only [Option.map_some, Predicate.fieldValue, Place.field?_relocate]
    text := congrArg some (h.textOf_relocate column captures h.node_mem h.le_node_start)
    child := hchild
    row := rfl
    ink := rfl
    line := by
      rintro pattern _ _ _ ⟨⟩ ⟨⟩ ⟨⟩
      exact h.lineHolds_reindent column captures pattern }

/-! ## Anchors -/

theorem columnOf_relocate (h : doc.Movable row node parent) {place : Place}
    (hstart : place.start < doc.source.rowStart row) :
    Column.columnOf (doc.reindent row column captures)
      (place.relocate (doc.source.moved row column)) = Column.columnOf doc place := by
  rw [Column.columnOf, Place.start_relocate, Source.moved_of_lt_rowStart h.row_lt hstart]
  exact congrArg Nat.cast (h.split.columnOf_reindent column hstart.le doc.tabWidth)

theorem rowOf_parent (h : doc.Movable row node parent) :
    (doc.reindent row column captures).rowOf (parent.relocate (doc.source.moved row column)) =
      doc.rowOf parent := by
  rw [Document.rowOf, Place.start_relocate,
    Source.moved_of_lt_rowStart h.row_lt h.parent_start_lt]
  exact h.split.rowOf_reindent column h.parent_start_lt.le

theorem startsRow_parent (h : doc.Movable row node parent) :
    (doc.reindent row column captures).startsRow (parent.relocate (doc.source.moved row column)) =
      doc.startsRow parent := by
  have hink : (doc.reindent row column captures).source.rowInk (doc.rowOf parent) =
      doc.source.rowInk (doc.rowOf parent) :=
    h.split.rowInk_reindent_of_lt column h.parent_above
  rw [Document.startsRow, h.rowOf_parent, hink, Place.start_relocate,
    Source.moved_of_lt_rowStart h.row_lt h.parent_start_lt]
  rfl

theorem rowColumn_parent (h : doc.Movable row node parent) :
    (doc.reindent row column captures).rowColumn (parent.relocate (doc.source.moved row column)) =
      doc.rowColumn parent := by
  rw [Document.rowColumn, h.rowOf_parent]
  exact h.split.rowColumn_reindent_of_lt column h.parent_above doc.tabWidth

theorem atNode_grandparent (h : doc.Movable row node parent) :
    Column.atNode (doc.reindent row column captures)
      (parent.relocate (doc.source.moved row column)).parent? =
        Column.atNode doc parent.parent? := by
  rw [Place.parent?_relocate]
  cases hparent : parent.parent? with
  | none => rfl
  | some grandparent =>
    have hstart := h.orderly.parent_start_le h.parent_mem hparent
    exact h.columnOf_relocate column captures (hstart.trans_lt h.parent_start_lt)

theorem rowBefore?_reindent (h : doc.Movable row node parent) {before : Nat}
    (hbefore : before ≤ row) :
    Column.rowBefore? (doc.reindent row column captures) before = Column.rowBefore? doc before := by
  induction before with
  | zero => rfl
  | succ before ih =>
    have hink : (doc.reindent row column captures).source.rowInk before =
        doc.source.rowInk before := h.split.rowInk_reindent_of_lt column hbefore
    have hstop : (doc.reindent row column captures).source.rowStop before =
        doc.source.rowStop before := h.split.rowStop_reindent_of_lt column hbefore
    rw [Column.rowBefore?, Column.rowBefore?, hink, hstop, ih (Nat.le_of_succ_le hbefore)]

theorem marker_commentStart (h : doc.Movable row node parent) :
    (Column.commentStart (doc.reindent row column captures) row).marker =
      (Column.commentStart doc row).marker := by
  have hnew : (doc.reindent row column captures).source.RowSplit row _ _ _ :=
    h.split.reindent column
  rw [Column.marker_commentStart_of_split hnew, Column.marker_commentStart_of_split h.split]

theorem atCommentText_reindent (h : doc.Movable row node parent) :
    Column.atCommentText (doc.reindent row column captures)
      (Target.ofRowAt (doc.reindent row column captures) row) =
        Column.atCommentText doc (Target.ofRowAt doc row) := by
  rw [h.target_reindent, h.target_eq]
  simp only [Column.atCommentText, Column.rowOf, Option.getD_some, Int.toNat_natCast,
    h.rowBefore?_reindent column captures (Nat.le_refl row)]
  cases hbefore : Column.rowBefore? doc row with
  | none => exact congrArg Nat.cast (h.rowColumn_parent column captures)
  | some before =>
    have hlt := Column.rowBefore?_lt hbefore
    have hstart : Column.commentStart (doc.reindent row column captures) before =
        Column.commentStart doc before :=
      congrArg CommentStart.ofLine (h.split.textOf_row_reindent_of_lt column hlt)
    simp only [Column.afterComment, hstart, h.marker_commentStart]
    rfl

/-- Anchors that look back stand where they stood. -/
theorem ofAnchor_reindent (h : doc.Movable row node parent) (unit : Int) {action : IndentAction}
    (haction : action.anchor.looksBack) :
    Column.ofAnchor (doc.reindent row column captures)
      (Target.ofRowAt (doc.reindent row column captures) row) unit action =
        Column.ofAnchor doc (Target.ofRowAt doc row) unit action := by
  have hparent := h.columnOf_relocate column captures h.parent_start_lt
  have hline : ((doc.reindent row column captures).rowColumn
      (parent.relocate (doc.source.moved row column)) : Int) = doc.rowColumn parent :=
    congrArg Nat.cast (h.rowColumn_parent column captures)
  have hcomment := h.atCommentText_reindent column captures
  -- The parent and all nodes above it start before the row, where nothing has moved.
  rw [h.target_reindent, h.target_eq] at hcomment ⊢
  unfold Column.ofAnchor
  cases hanchor : action.anchor with
  | margin => rfl
  | parentLine => exact congrArg Except.ok hline
  | standaloneParent =>
    simp only [Column.atStandaloneParent, Column.atParentLine, h.startsRow_parent, hparent, hline]
  | grandparent => exact congrArg Except.ok (h.atNode_grandparent column captures)
  | commentText => exact congrArg Except.ok hcomment
  | parent => exact congrArg Except.ok hparent
  | previousLine =>
    simp only [Column.atPreviousLine, Column.rowOf, Option.getD_some, Int.toNat_natCast,
      h.rowBefore?_reindent column captures (Nat.le_refl row)]
    cases hbefore : Column.rowBefore? doc row with
    | none => rfl
    | some before =>
      exact congrArg (fun width : Nat => Except.ok (width : Int))
        (h.split.rowColumn_reindent_of_lt column (Column.rowBefore?_lt hbefore) doc.tabWidth)
  | firstSibling | previousSibling | memberChain => simp [hanchor, Anchor.looksBack] at haction

/-! ## The row after the move -/

theorem checkFresh_reindent (h : doc.Movable row node parent) (hfresh : doc.checkFresh = .ok ()) :
    (doc.reindent row column captures).checkFresh = .ok () := by
  obtain ⟨hsame, hstop⟩ := doc.checkFresh_eq_ok_iff.1 hfresh
  refine (Document.checkFresh_eq_ok_iff _).2 ⟨?_, ?_⟩
  · rw [Document.reindent, Tree.label_relocate]
    exact hsame
  · have hsize : (doc.reindent row column captures).source.size =
        doc.source.moved row column doc.source.size := h.split.size_moved column
    -- A root that ended inside the margin would end behind the source after a move to the left.
    have hclear : ¬(doc.source.rowStart row < doc.tree.stop ∧
      doc.tree.stop < doc.source.rowInk row) := h.no_stop _ doc.tree.root_mem_places
    rw [hsize, Source.moved_of_le (Source.rowInk_le_size h.row_lt), Document.reindent,
      Tree.stop_relocate, Source.moved]
    split <;> omega

end Document.Movable

namespace Indentation

variable {doc : Document} {table : Table IndentAction} {unit : Int}

theorem row_of_make {row anchor offset : Int} {name : Value} {indentation : Indentation}
    (h : make (.int row) (.int anchor) (.int offset) name = .ok indentation) :
    indentation.row = row := by
  simp only [make, Checked.toOutcome_eq_ok_iff, Checked.apply_eq_ok_iff, Outcome.map_eq_ok,
    Field.int_atLeast_eq_ok_iff] at h
  obtain ⟨_, _, ⟨_, _, ⟨_, _, ⟨_, ⟨-, rfl⟩, rfl⟩, -, rfl⟩, -, rfl⟩, -, rfl⟩ := h
  rfl

variable {row : Nat} {node parent : Place} {indentation : Indentation}

/-- A row has an indentation by the rule that decides its target, or as it stands. -/
theorem ofRow_eq_ok_iff : ofRow doc table unit row = .ok indentation ↔
    doc.checkFresh = .ok () ∧ row < doc.source.rows ∧
      ∃ rule?, table.ruleFor doc (Target.ofRowAt doc row) = .ok rule? ∧
        rule?.elim (.ok ⟨row, doc.source.rowColumn doc.tabWidth row, 0, none⟩)
          (ofRule doc unit (Target.ofRowAt doc row) row) = .ok indentation := by
  have hinside : doc.source.checkRow row = .ok () ↔ row < doc.source.rows := by
    unfold Source.checkRow
    split <;> simp <;> omega
  simp only [ofRow, Outcome.bind_eq_ok, Target.ofRow, Outcome.map_eq_ok]
  constructor
  · rintro ⟨_, hfresh, target, ⟨_, hrow, rfl⟩, rule?, hrule, h⟩
    refine ⟨hfresh, hinside.1 hrow, rule?, hrule, ?_⟩
    cases rule? <;> exact h
  · rintro ⟨hfresh, hrow, rule?, hrule, h⟩
    refine ⟨(), hfresh, _, ⟨(), hinside.2 hrow, rfl⟩, rule?, hrule, ?_⟩
    cases rule? <;> exact h

theorem row_of_ofRow (h : ofRow doc table unit row = .ok indentation) : indentation.row = row := by
  obtain ⟨-, -, rule?, -, h⟩ := ofRow_eq_ok_iff.1 h
  cases rule? with
  | none =>
    cases h
    rfl
  | some rule =>
    obtain ⟨anchor, -, h⟩ := Outcome.bind_eq_ok.1 h
    exact row_of_make h

/-- The table asks the same of the moved row, by the same rule. -/
theorem ofRow_reindent (h : doc.Movable row node parent) (htable : table.LooksBack)
    (hrow : ofRow doc table unit row = .ok indentation)
    (captures : String → Option (Int × Int) → List (String × List Place)) :
    ofRow (doc.reindent row indentation.column.toNat captures) table unit row =
      .ok indentation := by
  obtain ⟨hfresh, -, rule?, hrule, hrow⟩ := ofRow_eq_ok_iff.1 hrow
  have hfirst := Rule.first_alike (h.alike indentation.column.toNat captures)
    fun rule hmem => (htable rule hmem).1
  refine ofRow_eq_ok_iff.2 ⟨h.checkFresh_reindent _ captures hfresh, (h.split.reindent _).row_lt,
    rule?, hfirst.trans hrule, ?_⟩
  cases rule? with
  | none =>
    -- Without a rule the row stays where it is, and it was moved to where it stands.
    cases hrow
    refine congrArg (fun width : Nat => Except.ok (⟨row, width, 0, none⟩ : Indentation)) ?_
    refine (h.split.rowColumn_reindent _ doc.tabWidth).trans ?_
    simp [column]
  | some rule =>
    have hback := (htable rule (Rule.mem_of_first hrule)).2
    have hanchor := h.ofAnchor_reindent indentation.column.toNat captures unit hback
    rw [Option.elim_some, ofRule] at hrow ⊢
    rw [hanchor]
    exact hrow

end Indentation

namespace Misplaced

variable {doc : Document} {table : Table IndentAction} {unit : Int} {row : Nat}

theorem ofIndentation?_eq_some {indentation : Indentation} {line : Misplaced}
    (h : ofIndentation? doc indentation = some line) :
    (doc.source.rowColumn doc.tabWidth indentation.row.toNat : Int) ≠ indentation.column ∧
      line = ⟨indentation.row, doc.source.rowColumn doc.tabWidth indentation.row.toNat,
        indentation.column⟩ := by
  unfold ofIndentation? at h
  dsimp only at h
  split at h
  · cases h
  next hnot => exact ⟨(not_or.1 hnot).2, (Option.some.inj h).symm⟩

/-- The listing leaves out a row that stands where it should, unless it fails at another row. -/
theorem all_leaves_out {indentation : Indentation}
    (hrow : Indentation.ofRow doc table unit row = .ok indentation)
    (hcolumn : (doc.source.rowColumn doc.tabWidth row : Int) = indentation.column) :
    (∃ listed, all doc table unit = .ok listed ∧ ∀ line ∈ listed, line.row ≠ row) ∨
      ∃ other < doc.source.rows, other ≠ row ∧
        ∃ error, Indentation.ofRow doc table unit other = .error error := by
  rcases Outcome.mapM_cases (fun number : Nat => Indentation.ofRow doc table unit number)
    (List.range doc.source.rows) with ⟨results, hresults, hall⟩ | ⟨other, hother, error, herror⟩
  · refine .inl ⟨results.filterMap (ofIndentation? doc), ?_, ?_⟩
    · rw [all, Indentation.ofRows, hresults]
      rfl
    · intro line hline hsame
      obtain ⟨result, hresult, hof⟩ := List.mem_filterMap.1 hline
      obtain ⟨number, -, hnumber⟩ := hall result hresult
      obtain ⟨hplaced, rfl⟩ := ofIndentation?_eq_some hof
      have hrowOf : result.row = number := Indentation.row_of_ofRow hnumber
      obtain rfl : number = row := Int.ofNat_inj.1 (hrowOf.symm.trans hsame)
      obtain rfl : result = indentation := Except.ok.inj (hnumber.symm.trans hrow)
      rw [hrowOf, Int.toNat_natCast] at hplaced
      exact hplaced hcolumn
  · refine .inr ⟨other, List.mem_range.1 hother, ?_, error, herror⟩
    rintro rfl
    rw [hrow] at herror
    cases herror

end Misplaced

/-- A row that was moved to its column stays there: the table asks the same of it once more, and it
is not listed among the lines that do not start where they should. The listing itself gives no
result only if another row has no indentation. -/
theorem Indentation.idempotent {doc : Document} {table : Table IndentAction} {unit : Int}
    {row : Nat} {node parent : Place} {indentation : Indentation}
    (h : doc.Movable row node parent) (htable : table.LooksBack)
    (hrow : ofRow doc table unit row = .ok indentation)
    (captures : String → Option (Int × Int) → List (String × List Place)) :
    let moved := doc.reindent row indentation.column.toNat captures
    ofRow moved table unit row = .ok indentation ∧
      ((∃ listed, Misplaced.all moved table unit = .ok listed ∧ ∀ line ∈ listed, line.row ≠ row) ∨
        ∃ other < moved.source.rows, other ≠ row ∧
          ∃ error, ofRow moved table unit other = .error error) := by
  have hagain := ofRow_reindent h htable hrow captures
  have hcolumn : (((doc.reindent row indentation.column.toNat captures).source.rowColumn
      doc.tabWidth row : Nat) : Int) = indentation.column := by
    have hspaces := h.split.rowColumn_reindent indentation.column.toNat doc.tabWidth
    exact (congrArg Nat.cast hspaces).trans (Int.toNat_of_nonneg (Int.le_max_left _ _))
  exact ⟨hagain, Misplaced.all_leaves_out hagain hcolumn⟩

/-! ## A block -/

def blockTree : Tree :=
  .node ⟨0, "module", 0, 9, true, none, false⟩
    [.node ⟨1, "if_statement", 0, 8, true, none, false⟩
      [.node ⟨2, "if", 0, 2, false, none, false⟩ [],
        .node ⟨3, "identifier", 3, 4, true, some "condition", false⟩ [],
        .node ⟨4, ":", 4, 5, false, none, false⟩ [],
        .node ⟨5, "block", 7, 8, true, some "consequence", false⟩
          [.node ⟨6, "identifier", 7, 8, true, none, false⟩ []]]]

/-- The rows `if x:` and ` y`, whose second row is one column too far to the left. -/
def blockDocument : Document where
  language := "blocks"
  source := Source.ofBytes [105, 102, 32, 120, 58, 10, 32, 121, 10]
  tree := blockTree
  captures _ _ := []
  toolkit := ⟨fun _ => .ok ⟨fun _ => true, fun _ => true⟩, fun _ _ => .ok []⟩

def blockTable : Table IndentAction where
  rules :=
    [⟨.fieldIs (.text "consequence") .always, ⟨.parentLine, { units := 1 }, []⟩, .text "body"⟩]

def blockPlace : Place :=
  ((⟨blockTree, []⟩ : Place).children.flatMap Place.children).getD 3 ⟨blockTree, []⟩

def blockParent : Place := blockPlace.parent?.getD ⟨blockTree, []⟩

theorem movable_block : blockDocument.Movable 1 blockPlace blockParent where
  orderly := ⟨by decide, by decide⟩
  row_lt := by decide
  inked := by decide
  spaces := fun _ hbyte => .inl (List.mem_singleton.1 hbyte)
  no_start := by
    change ∀ place ∈ blockTree.places, ¬(6 ≤ place.start ∧ place.start < 7)
    decide
  no_stop := by
    change ∀ place ∈ blockTree.places, ¬(6 < place.stop ∧ place.stop < 7)
    decide
  has_node := by rfl
  has_parent := by rfl
  parent_above := by
    rw [Document.rowOf, Source.rowOf_natCast]
    decide

theorem looksBack_block : blockTable.LooksBack := by
  intro rule hrule
  obtain rfl := List.mem_singleton.1 hrule
  exact ⟨by cbv, rfl⟩

theorem Indentation.idempotent_block :
    blockDocument.Movable 1 blockPlace blockParent ∧ blockTable.LooksBack ∧
      ofRow blockDocument blockTable 2 1 = .ok ⟨1, 0, 2, some "body"⟩ ∧
      Misplaced.all blockDocument blockTable 2 = .ok [⟨1, 1, 2⟩] ∧
      ofRow (blockDocument.reindent 1 2 blockDocument.captures) blockTable 2 1 =
        .ok ⟨1, 0, 2, some "body"⟩ ∧
      Misplaced.all (blockDocument.reindent 1 2 blockDocument.captures) blockTable 2 = .ok [] := by
  have hrow : ofRow blockDocument blockTable 2 1 = .ok ⟨1, 0, 2, some "body"⟩ := by cbv
  have hagain := (idempotent movable_block looksBack_block hrow blockDocument.captures).1
  exact ⟨movable_block, looksBack_block, hrow, by cbv, hagain, by cbv⟩

end TreeRules
