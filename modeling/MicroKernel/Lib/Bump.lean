import Mathlib.Data.List.Range
import Mathlib.Algebra.Order.Ring.Nat

/-!
# Bump allocation

The allocator every other one is measured against: an arena hands out blocks
of one size from the bottom up and never takes one back. All there is to know
about it is one closed form. The `i`-th request is granted exactly when `i` is
below the room the arena started with, and what it is granted is the `i`-th
block (`takes_fst`); the break has then moved over as many blocks as were
granted (`takes_next`).
-/

namespace Bump

/-- A region from `next` to `limit`, handed out in blocks of `grain`. -/
structure Arena where
  next : Nat
  limit : Nat
  grain : Nat
  grain_pos : 0 < grain

namespace Arena

def take (a : Arena) : Option Nat × Arena :=
  if a.next + a.grain ≤ a.limit then
    (some a.next, { a with next := a.next + a.grain })
  else (none, a)

/-- `n` requests, one after another. -/
def takes : Nat → Arena → List (Option Nat) × Arena
  | 0, a => ([], a)
  | n + 1, a => (a.take.1 :: (takes n a.take.2).1, (takes n a.take.2).2)

/-- How many requests the arena can still grant. -/
def room (a : Arena) : Nat := (a.limit - a.next) / a.grain

/-- The answer to the `i`-th request from now. -/
def grant (a : Arena) (i : Nat) : Option Nat :=
  if i < a.room then some (a.next + a.grain * i) else none

theorem room_pos_iff {a : Arena} : 0 < a.room ↔ a.next + a.grain ≤ a.limit := by
  have := a.grain_pos
  rw [room, Nat.div_pos_iff]
  omega

theorem take_of_room {a : Arena} (h : 0 < a.room) :
    a.take = (some a.next, { a with next := a.next + a.grain }) :=
  if_pos (room_pos_iff.1 h)

theorem take_of_full {a : Arena} (h : a.room = 0) : a.take = (none, a) :=
  if_neg fun hle => Nat.ne_of_gt (room_pos_iff.2 hle) h

theorem take_grain (a : Arena) : a.take.2.grain = a.grain := by
  rw [take]
  split <;> rfl

theorem room_take {a : Arena} (h : 0 < a.room) :
    a.take.2.room + 1 = a.room := by
  have hfit := room_pos_iff.1 h
  rw [take_of_room h]
  have hsub : a.limit - a.next = a.limit - (a.next + a.grain) + a.grain := by
    omega
  rw [room, room, hsub, Nat.add_div_right _ a.grain_pos]

theorem grant_take (a : Arena) (i : Nat) :
    a.take.2.grant i = a.grant (i + 1) := by
  rcases Nat.eq_zero_or_pos a.room with hfull | hroom
  · rw [take_of_full hfull, grant, grant, hfull, if_neg (Nat.not_lt_zero _),
      if_neg (Nat.not_lt_zero _)]
  · have hr := room_take hroom
    rw [take_of_room hroom] at hr ⊢
    by_cases hi : i + 1 < a.room
    · rw [grant, grant, if_pos hi, if_pos (by omega), Nat.mul_add_one,
        Nat.add_assoc, Nat.add_comm a.grain]
    · rw [grant, grant, if_neg hi, if_neg (by omega)]

theorem grant_zero (a : Arena) : a.take.1 = a.grant 0 := by
  rcases Nat.eq_zero_or_pos a.room with hfull | hroom
  · rw [take_of_full hfull, grant, hfull, if_neg (Nat.lt_irrefl 0)]
  · rw [take_of_room hroom, grant, if_pos hroom, Nat.mul_zero, Nat.add_zero]

theorem takes_fst (n : Nat) (a : Arena) :
    (takes n a).1 = (List.range n).map a.grant := by
  induction n generalizing a with
  | zero => rfl
  | succ n ih =>
      rw [takes, ih, List.range_succ_eq_map, List.map_cons, List.map_map,
        grant_zero]
      exact congrArg _ (List.map_congr_left fun i _ => grant_take a i)

theorem takes_next (n : Nat) (a : Arena) :
    (takes n a).2.next = a.next + a.grain * min n a.room := by
  induction n generalizing a with
  | zero => rw [Nat.zero_min, Nat.mul_zero]; rfl
  | succ n ih =>
      rw [takes, ih]
      rcases Nat.eq_zero_or_pos a.room with hfull | hroom
      · rw [take_of_full hfull, hfull, Nat.min_zero, Nat.min_zero]
      · have hnext : a.take.2.next = a.next + a.grain := by
          rw [take_of_room hroom]
        rw [hnext, take_grain, ← room_take hroom, Nat.add_min_add_right,
          Nat.mul_add_one, Nat.add_assoc, Nat.add_comm a.grain]

end Arena

end Bump
