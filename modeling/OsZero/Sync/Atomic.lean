import Mathlib.Logic.Basic

set_option autoImplicit false

namespace OsZero.Sync

-- m_cmpswap, m_cmpswapu, m_cmpswapptr: the new word, and whether the exchange
-- was made. The source returns nonzero on success.
def mcmpswap {α : Type} [DecidableEq α] (p want val : α) : α × Bool := if p = want then (val, true) else (p, false)

theorem cmpswap_same {α : Type} [DecidableEq α] (p val : α) : mcmpswap p p val = (val, true) := if_pos rfl

theorem cmpswap_other {α : Type} [DecidableEq α] (p want val : α) (different : p ≠ want) : mcmpswap p want val = (p, false) :=
  if_neg different

-- A lock that names the thread that has it, as another thread sees it.
theorem lk_taken {Thread : Type} (thread : Thread) (lk : Option Thread) (free : lk = none) (other : Thread) (different : other ≠ thread) :
    some thread = some other ↔ lk = some other := by
  rw [free]
  exact ⟨fun same => absurd (Option.some.inj same).symm different, fun same => (by cases same)⟩

theorem lk_released {Thread : Type} (thread : Thread) (lk : Option Thread) (mine : lk = some thread) (other : Thread) (different : other ≠ thread) :
    none = some other ↔ lk = some other := by
  rw [mine]
  exact ⟨fun same => (by cases same), fun same => absurd (Option.some.inj same).symm different⟩

end OsZero.Sync
