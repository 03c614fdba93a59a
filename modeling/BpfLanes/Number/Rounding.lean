/-! # Rounding

Quotients of natural numbers rounded to the nearest whole number; a half goes
to the even neighbour.
-/

namespace BpfLanes.Rounding

/-- The whole number nearest to `n / d`, the even one of two that are equally near. -/
def nearest (n d : Nat) : Nat :=
  let k := n / d
  let twice := 2 * (n % d)
  if twice < d then k
  else if d < twice then k + 1
  else k + k % 2

theorem nearest_close (n d : Nat) (h : 0 < d) :
    2 * (nearest n d * d) ≤ 2 * n + d ∧ 2 * n ≤ 2 * (nearest n d * d) + d := by
  have hk : n = d * (n / d) + n % d := (Nat.div_add_mod n d).symm
  have hr : n % d < d := Nat.mod_lt n h
  have hm : d * (n / d) = n / d * d := Nat.mul_comm _ _
  simp only [nearest]
  split
  · omega
  · split
    · rw [Nat.add_mul]
      omega
    · rcases Nat.mod_two_eq_zero_or_one (n / d) with he | he <;> rw [he, Nat.add_mul] <;> omega

theorem nearest_half_even (k d : Nat) (h : 0 < d) :
    nearest (k * (2 * d) + d) (2 * d) % 2 = 0 := by
  have hd : (k * (2 * d) + d) / (2 * d) = k := by
    rw [Nat.add_comm, Nat.add_mul_div_right _ _ (by omega), Nat.div_eq_of_lt (by omega),
      Nat.zero_add]
  have hm : (k * (2 * d) + d) % (2 * d) = d := by
    rw [Nat.add_comm, Nat.add_mul_mod_self_right, Nat.mod_eq_of_lt (by omega)]
  simp only [nearest, hd, hm, Nat.lt_irrefl, if_false]
  omega

end BpfLanes.Rounding
