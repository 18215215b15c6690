import Mathlib.Data.BitVec

/-! Serial numbers: a counter that is only kept modulo `2^w`. Positions are natural numbers. -/

namespace Rucux.Lib.Serial
variable {w : Nat}

def offset (base : BitVec w) (n : Nat) : BitVec w := base + BitVec.ofNat w n

@[simp] theorem offset_zero (base : BitVec w) : offset base 0 = base := by
  simp [offset]

theorem offset_add (base : BitVec w) (m n : Nat) :
    offset base m + BitVec.ofNat w n = offset base (m+n) := by
  simp [offset,BitVec.ofNat_add,BitVec.add_assoc]

section
variable (base : BitVec w) {m n : Nat}

theorem offset_sub (h : n ≤ m) : offset base m - offset base n = BitVec.ofNat w (m-n) := by
  obtain ⟨d,rfl⟩ := Nat.exists_eq_add_of_le h
  rw [← offset_add,Nat.add_sub_cancel_left]
  exact add_sub_cancel_left _ _

theorem offset_sub_toNat (h : n ≤ m) (hlt : m-n < 2^w) : (offset base m - offset base n).toNat = m-n := by
  rw [offset_sub base h,BitVec.toNat_ofNat,Nat.mod_eq_of_lt hlt]

theorem offset_inj (hm : m < 2^w) (hn : n < 2^w) (h : offset base m = offset base n) : m = n := by
  have hh : BitVec.ofNat w m = BitVec.ofNat w n := (BitVec.add_right_inj base).mp h
  have ht := congrArg BitVec.toNat hh
  simpa [Nat.mod_eq_of_lt hm,Nat.mod_eq_of_lt hn] using ht

end

theorem toInt_nonneg (x : BitVec w) : 0 ≤ x.toInt ↔ 2*x.toNat < 2^w := by
  have hx := x.isLt
  rw [BitVec.toInt_eq_toNat_cond]
  split <;> omega

theorem toInt_pos (x : BitVec w) : 0 < x.toInt ↔ 0 < x.toNat ∧ 2*x.toNat < 2^w := by
  have hx := x.isLt
  rw [BitVec.toInt_eq_toNat_cond]
  split <;> omega

section
variable (base : BitVec w) {m n : Nat} (h₁ : 2*(m-n) < 2^w) (h₂ : 2*(n-m) < 2^w)
include h₁ h₂

/-- Between positions less than half the range apart, the signed difference is
non-negative exactly when the second does not pass the first. -/
theorem nonneg_offset_sub : 0 ≤ (offset base m - offset base n).toInt ↔ n ≤ m := by
  rw [toInt_nonneg]
  by_cases h : n ≤ m
  · rw [offset_sub_toNat base h (by omega)]
    exact ⟨fun _ => h,fun _ => h₁⟩
  have hlt : n-m < 2^w := by omega
  have hneg : offset base m - offset base n = -(offset base n - offset base m) := by
    rw [neg_sub]
  have hn := offset_sub_toNat base (Nat.le_of_not_le h) hlt
  rw [hneg,BitVec.toNat_neg,hn,Nat.mod_eq_of_lt (by omega)]
  exact ⟨fun hh => by omega,fun hh => absurd hh h⟩

theorem pos_offset_sub : 0 < (offset base m - offset base n).toInt ↔ n < m := by
  have hnn := nonneg_offset_sub base h₁ h₂
  constructor
  · intro h
    have hle := hnn.mp (by omega)
    have hpos := ((toInt_pos _).mp h).1
    rw [offset_sub_toNat base hle (by omega)] at hpos
    omega
  intro h
  rw [toInt_pos,offset_sub_toNat base (by omega) (by omega)]
  omega

end

/-- A written number that signed comparison puts between two positions is the
writing of a position between them. -/
theorem exists_position (base x : BitVec w) {lo hi : Nat} (hle : lo ≤ hi)
    (hhalf : 2*(hi-lo) < 2^w) (hlo : 0 ≤ (x - offset base lo).toInt)
    (hhi : (x - offset base hi).toInt ≤ 0) :
    ∃ n, lo ≤ n ∧ n ≤ hi ∧ x = offset base n := by
  have hd := (toInt_nonneg _).mp hlo
  have hx : x = offset base (lo+(x - offset base lo).toNat) := by
    rw [← offset_add,BitVec.ofNat_toNat,BitVec.setWidth_eq,BitVec.add_comm]
    exact (BitVec.sub_add_cancel x (offset base lo)).symm
  generalize (x - offset base lo).toNat = d at hd hx
  refine ⟨lo+d,by omega,?_,hx⟩
  by_contra hn
  have hpos : 0 < (offset base (lo+d) - offset base hi).toInt :=
    (pos_offset_sub base (by omega) (by omega)).mpr (by omega)
  rw [← hx] at hpos
  omega

end Rucux.Lib.Serial
