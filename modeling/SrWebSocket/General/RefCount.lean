import Mathlib.Logic.Function.Iterate
import Mathlib.Data.Int.Order.Basic

/-! # Reference counts

Each holder of an object takes a reference and drops it again, and whoever drops the
last one deletes the object. As long as the count is the number of references held,
nothing is deleted under a holder, and the end of the last one is the one deletion.
-/
namespace SrWebSocket.RefCount

structure Counted where
  count : ℤ
  deletes : ℕ
deriving DecidableEq

def Counted.take (c : Counted) : Counted := { c with count := c.count + 1 }

/-- The object is deleted when nothing is left. -/
def Counted.drop (c : Counted) : Counted where
  count := c.count - 1
  deletes := if c.count - 1 ≤ 0 then c.deletes + 1 else c.deletes

/-- There are `n` references, and have been some: the object is deleted if all are dropped. -/
structure Holds (n : ℕ) (c : Counted) : Prop where
  count : c.count = n
  deletes : c.deletes = if n = 0 then 1 else 0

variable {n m k : ℕ} {c : Counted}

theorem Holds.undeleted (h : Holds n c) (hn : 0 < n) : c.deletes = 0 := by
  rw [h.deletes, if_neg (Nat.ne_of_gt hn)]

theorem Holds.take (h : Holds n c) (hn : 0 < n) : Holds (n + 1) c.take where
  count := by
    rw [Counted.take, h.count]
    rfl
  deletes := (h.undeleted hn).trans (if_neg n.succ_ne_zero).symm

theorem Holds.drop (h : Holds (n + 1) c) : Holds n c.drop := by
  have hcount : c.count - 1 = n := by
    rw [h.count]
    omega
  refine ⟨hcount, ?_⟩
  rw [Counted.drop, hcount, h.undeleted n.succ_pos]
  exact if_congr (by omega) rfl rfl

theorem Holds.takes (h : Holds n c) (hn : 0 < n) (k : ℕ) : Holds (n + k) (Counted.take^[k] c) := by
  induction k with
  | zero => exact h
  | succ k ih =>
    rw [Function.iterate_succ_apply']
    exact ih.take (by omega)

theorem Holds.drops (h : Holds (n + k) c) : Holds n (Counted.drop^[k] c) := by
  induction k generalizing c with
  | zero => exact h
  | succ k ih => exact ih h.drop

/-- References that are taken and dropped again in between. -/
theorem Holds.takes_drops (h : Holds n c) (hn : 0 < n) (hk : k ≤ m) :
    Holds (n + (m - k)) (Counted.drop^[k] (Counted.take^[m] c)) := by
  apply Holds.drops
  rw [Nat.add_assoc, Nat.sub_add_cancel hk]
  exact h.takes hn m

/-- The first reference on a new object, whose count starts with `n`. -/
theorem holds_new (n : ℕ) : Holds (n + 1) (Counted.take { count := n, deletes := 0 }) where
  count := rfl
  deletes := (if_neg n.succ_ne_zero).symm

end SrWebSocket.RefCount
