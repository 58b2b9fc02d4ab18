import TreeRules.Proofs.Indent.RowTarget
import TreeRules.Proofs.Predicate.Recollection

/-! # Rows and nodes as targets

A target is found from a row, or from a node. From a node the row is looked up by binary search, and
its margin is passed once more. The node of a row leads back to the target of that row just if it
starts in the row, and it does where it starts with the text of the row. Predicates then answer the
same on both ways, whatever was evaluated before on either of them.
-/
namespace TreeRules.Target

variable {doc : Document} {row : Nat} {node : Place}

theorem ofNode_eq_ofRowAt_iff (hnode : (ofRowAt doc row).node = some node) :
    ofNode doc node = ofRowAt doc row ↔ doc.rowOf node = row := by
  have htarget := (ofRowAt_inv hnode).2.2.2
  rw [htarget, ofNode]
  constructor
  · intro hsame
    have hrows : (some (doc.rowOf node : Int) : Option Int) = some (row : Int) :=
      congrArg Target.row hsame
    exact Int.ofNat_inj.1 (Option.some.inj hrows)
  · intro hrow
    simp only [hrow]

theorem ofNode_eq_ofRowAt (hrow : row < doc.source.rows)
    (hnode : (ofRowAt doc row).node = some node)
    (hstart : (ofRowAt doc row).ink = some (node.start : Int)) :
    ofNode doc node = ofRowAt doc row := by
  have htarget := (ofRowAt_inv hnode).2.2.2
  rw [htarget] at hstart
  have hink : doc.source.rowInk row = node.start := Int.ofNat_inj.1 (Option.some.inj hstart)
  refine (ofNode_eq_ofRowAt_iff hnode).2 ?_
  rw [Document.rowOf, ← hink]
  exact Source.rowOf_rowInk hrow

/-- Where the node of a row starts with the text of the row, the target of the node has the node,
the parent, the grandparent, the start of the text and the row of the target of the row. Every
predicate gives both the same answer, also if different predicates were evaluated before. -/
theorem ofNode_agrees {doc : Document} {row : Int} (hrow : 0 ≤ row ∧ row < doc.source.rows) :
    ∃ target, ofRow doc row = .ok target ∧
      ∀ node, target.node = some node → target.ink = some (node.start : Int) →
        ((ofNode doc node).node = target.node ∧ (ofNode doc node).parent = target.parent ∧
          (ofNode doc node).grandparent = target.grandparent ∧
          (ofNode doc node).ink = target.ink ∧ (ofNode doc node).row = target.row) ∧
        ∀ test before before',
          (Predicate.evaluate doc (ofNode doc node) test
              (Predicate.evaluateSeries doc before []).2).1 =
            (Predicate.evaluate doc target test (Predicate.evaluateSeries doc before' []).2).1 := by
  obtain ⟨row, rfl⟩ := Int.eq_ofNat_of_zero_le hrow.1
  have hinside : row < doc.source.rows := Int.ofNat_lt.1 hrow.2
  refine ⟨ofRowAt doc row, ofRow_natCast hinside, ?_⟩
  intro node hnode hstart
  have hsame := ofNode_eq_ofRowAt hinside hnode hstart
  rw [hsame]
  refine ⟨⟨rfl, rfl, rfl, rfl, rfl⟩, ?_⟩
  -- The two memories may hold different entries, but each of them is what the engine answers.
  intro test before before'
  have hempty := Memory.faithful_nil doc
  have hone := Predicate.evaluate_recalled (ofRowAt doc row) test
    (Predicate.evaluateSeries_faithful before hempty)
  have htwo := Predicate.evaluate_recalled (ofRowAt doc row) test
    (Predicate.evaluateSeries_faithful before' hempty)
  exact hone.trans htwo.symm

/-! ### A row behind an empty one -/

def gapTree : Tree :=
  .node ⟨0, "module", 0, 10, true, none, false⟩
    [.node ⟨1, "call", 0, 10, true, none, false⟩
      [.node ⟨2, "name", 0, 1, true, none, false⟩ [],
        .node ⟨3, "arguments", 1, 10, true, none, false⟩
          [.node ⟨4, "member", 8, 9, true, none, false⟩
            [.node ⟨5, "name", 8, 9, true, none, false⟩ []]]]]

/-- The call `f(x)`, with an empty row and a margin of a tab and a space in front of `x`. The rows
end with carriage returns. -/
def gapDocument : Document := plainDocument [102, 40, 13, 10, 13, 10, 9, 32, 120, 41] gapTree

theorem ofNode_agrees_gap : ((0 : Int) ≤ 2 ∧ (2 : Int) < gapDocument.source.rows) ∧
    ∃ target node, ofRow gapDocument 2 = .ok target ∧ target.node = some node ∧
      target.ink = some (node.start : Int) ∧ node.kind = "member" ∧
      (ofNode gapDocument node).row = some 2 ∧ (ofNode gapDocument node).ink = some 8 ∧
      (ofNode gapDocument node).grandparent.map Place.kind = some "call" := by
  have hrow : (0 : Int) ≤ 2 ∧ (2 : Int) < gapDocument.source.rows := by decide
  obtain ⟨target, htarget, hagrees⟩ := ofNode_agrees hrow
  have hfound : ofRow gapDocument 2 = .ok (ofRowAt gapDocument 2) := rfl
  cases hfound.symm.trans htarget
  obtain ⟨⟨-, -, hgrandparent, hink, hrow'⟩, -⟩ := hagrees _ rfl rfl
  refine ⟨hrow, _, _, hfound, rfl, rfl, rfl, hrow', hink, ?_⟩
  rw [hgrandparent]
  rfl

end TreeRules.Target
