import StyleCascade.Sheet

/-!
# Matched rules

A rule that applies to a node has the specificity of its best selector, and a higher
specificity ranks higher. Of rules of equal specificity, those under a media condition
rank higher than the others, and where that does not tell them apart, a higher order
does. Lists of matched rules run from the lowest rank to the highest, so a rule under a
media condition comes after the others of its specificity; rules of equal rank keep the
order in which they were found.
-/
namespace StyleCascade

/-- The largest number of 64 bits. -/
def greatestWord : Nat := 0xFFFFFFFFFFFFFFFF

structure MatchedRule where
  rule : StyleRule
  specificity : Nat
  /-- The text of the selector, when the rule applies only while states above the node
  allow it. -/
  pseudoKey : Option String := none
deriving Repr, Inhabited

namespace MatchedRule

/-- Whether `a` ranks at most as high as `b`. -/
def rankLe (a b : MatchedRule) : Bool :=
  if a.specificity ≠ b.specificity then a.specificity < b.specificity
  else if a.rule.inMedia ≠ b.rule.inMedia then b.rule.inMedia
  else a.rule.order ≤ b.rule.order

/-- The rank as a single number, for display: a million for each point of specificity, and
the order up to the last number below that. Numbers stay within 64 bits. -/
def score (m : MatchedRule) : Nat :=
  min greatestWord (min greatestWord (m.specificity * 1000000) + min m.rule.order 999999)

/-- Sorts by rank, stably. -/
def sort (rules : List MatchedRule) : List MatchedRule :=
  rules.mergeSort rankLe

end MatchedRule
end StyleCascade
