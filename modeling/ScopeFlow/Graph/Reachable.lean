import ScopeFlow.Graph.Basic

/-!
# Reachable operators

Breadth-first listing of the operators that one operator leads to. The walk
ends because it goes on only from an operator of the graph that it has not
listed before: each such step leaves fewer unlisted operators, and every
other step shortens the queue.
-/

namespace ScopeFlow.Graph

/-- How many of the first `n` operators are not listed in `seen`. -/
def unlisted (seen : List OperatorId) : Nat → Nat
  | 0 => 0
  | n + 1 => unlisted seen n + if (⟨n⟩ : OperatorId) ∈ seen then 0 else 1

theorem unlisted_cons_le (seen : List OperatorId) (id : OperatorId) (n : Nat) :
    unlisted (id :: seen) n ≤ unlisted seen n := by
  induction n with
  | zero => exact Nat.le_refl _
  | succ n ih =>
    have h : (if (⟨n⟩ : OperatorId) ∈ id :: seen then 0 else 1) ≤
        if (⟨n⟩ : OperatorId) ∈ seen then 0 else 1 := by
      by_cases hm : (⟨n⟩ : OperatorId) ∈ seen
      · simp [hm]
      · rw [if_neg hm]; split <;> omega
    simp only [unlisted]
    omega

/-- Listing one more operator of the graph leaves fewer. -/
theorem unlisted_cons_lt {seen : List OperatorId} {id : OperatorId} {n : Nat}
    (hn : id.index < n) (hs : id ∉ seen) : unlisted (id :: seen) n < unlisted seen n := by
  induction n with
  | zero => omega
  | succ n ih =>
    by_cases he : id.index = n
    · have hid : (⟨n⟩ : OperatorId) = id := by cases id; simp_all
      have hle := unlisted_cons_le seen id n
      simp only [unlisted, hid, hs, List.mem_cons, true_or, if_true, if_false]
      omega
    · have hlt := ih (by omega)
      have hne : (⟨n⟩ : OperatorId) ≠ id := by intro h; apply he; rw [← h]
      simp only [unlisted, List.mem_cons, hne, false_or]
      omega

theorem index_lt_of_get? {g : Graph} {id : OperatorId} {op : Operator}
    (h : g.get? id = some op) : id.index < g.size := by
  rw [get?, Array.getElem?_eq_some_iff] at h
  exact h.1

/-- Goes on with a breadth-first listing: `seen` holds what is listed so far,
the latest first, and `queue` what is still to be visited. -/
def reachFrom (g : Graph) (h : Heap) (seen queue : List OperatorId) :
    Except Failure (List OperatorId) :=
  match queue with
  | [] => .ok seen.reverse
  | id :: rest =>
    if _hs : id ∈ seen then reachFrom g h seen rest
    else
      match _hg : g.get? id with
      | none => .error (.unknownOperator id)
      | some op => reachFrom g h (id :: seen) (rest ++ op.references h)
termination_by (unlisted seen g.size, queue.length)
decreasing_by
  · exact Prod.Lex.right _ (by simp)
  · exact Prod.Lex.left _ _ (unlisted_cons_lt (index_lt_of_get? _hg) _hs)

/-- The operators that one leads to, itself first, breadth first, each once. -/
def reachable (g : Graph) (h : Heap) (start : OperatorId) : Except Failure (List OperatorId) :=
  g.reachFrom h [] [start]

end ScopeFlow.Graph
