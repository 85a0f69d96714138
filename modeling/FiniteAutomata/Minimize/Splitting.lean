import FiniteAutomata.Minimize.Partition

/-! Refinement in any order. The loop takes the first block that can be split and the first character that splits it;
    here it may be any block and any character. The members that part from the first one of their block move to a block
    of their own at the end all the same. -/

namespace FiniteAutomata
namespace Partition

/-- One split of some block on some character of the alphabet. -/
def Splits (fa : Automaton) (alphabet : List Char) (p q : Partition) : Prop :=
  ∃ k block c, p.blocks[k]? = some block ∧ c ∈ alphabet ∧ p.dissenters fa block c ≠ ∅ ∧
    q = p.separate k (p.dissenters fa block c)

/-- No character of the alphabet splits a block. -/
def Settled (fa : Automaton) (alphabet : List Char) (p : Partition) : Prop := ∀ q, ¬p.Splits fa alphabet q

end Partition
end FiniteAutomata
