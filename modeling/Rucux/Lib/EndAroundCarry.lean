import Mathlib.Data.Nat.ModEq
import Mathlib.Tactic.Ring

/-! Sums folded into one digit of base `b` by adding the carry back in. -/

namespace Rucux.Lib

def foldCarry (b : Nat) : Nat → Nat → Nat
  | 0, s => s
  | fuel+1, s => if s < b then s else foldCarry b fuel (s % b+s / b)

variable {b : Nat}

theorem carry_modEq (hb : 1 ≤ b) (s : Nat) : s % b+s / b ≡ s [MOD b-1] := by
  have hs := Nat.mod_add_div s b
  have hb' : b ≡ 1 [MOD b-1] := by
    have h := Nat.ModEq.add_right 1 ((Nat.modEq_zero_iff_dvd).mpr (dvd_refl (b-1)))
    simpa [Nat.sub_add_cancel hb] using h
  calc s % b+s / b = s % b+1*(s / b) := by rw [Nat.one_mul]
    _ ≡ s % b+b*(s / b) [MOD b-1] := (hb'.symm.mul_right _).add_left _
    _ = s := hs

theorem foldCarry_modEq (hb : 1 ≤ b) (fuel s : Nat) : foldCarry b fuel s ≡ s [MOD b-1] := by
  induction fuel generalizing s with
  | zero => rfl
  | succ fuel ih =>
    rw [foldCarry]
    split
    · rfl
    · exact (ih _).trans (carry_modEq hb s)

theorem foldCarry_pos (hb : 1 ≤ b) (fuel s : Nat) (hs : 0 < s) : 0 < foldCarry b fuel s := by
  induction fuel generalizing s with
  | zero => exact hs
  | succ fuel ih =>
    rw [foldCarry]
    split
    · exact hs
    rename_i hge
    apply ih
    have hd : 0 < s / b := Nat.div_pos (by omega) hb
    omega

theorem foldCarry_of_lt (fuel : Nat) {s : Nat} (hs : s < b) : foldCarry b fuel s = s := by
  cases fuel with
  | zero => rfl
  | succ fuel => rw [foldCarry,if_pos hs]

section
variable (hb : 2 ≤ b) {fuel s : Nat} (hf : 2 ≤ fuel)
include hb hf

theorem foldCarry_lt (hs : s < b*b) : foldCarry b fuel s < b := by
  obtain ⟨fuel,rfl⟩ := Nat.exists_eq_add_of_le' hf
  rw [foldCarry]
  split
  · assumption
  have hm := Nat.mod_lt s (show 0 < b by omega)
  have hq : s / b < b := Nat.div_lt_of_lt_mul hs
  rw [foldCarry]
  split
  · assumption
  rename_i hge
  obtain ⟨r,hr⟩ := Nat.exists_eq_add_of_le (Nat.le_of_not_lt hge)
  have hmod : (b+r) % b = r := by
    rw [Nat.add_mod_left,Nat.mod_eq_of_lt (by omega)]
  have hdiv : (b+r) / b = 1 := by
    rw [Nat.add_div_left r (by omega),Nat.div_eq_of_lt (by omega)]
  rw [hr,hmod,hdiv,foldCarry_of_lt fuel (by omega)]
  omega

theorem foldCarry_complement {fuel' : Nat} (hf' : 2 ≤ fuel') (hs : s < b*b)
    (ht : s+(b-1-foldCarry b fuel s) < b*b) :
    foldCarry b fuel' (s+(b-1-foldCarry b fuel s)) = b-1 := by
  have hlt := foldCarry_lt hb hf hs
  have hmod := foldCarry_modEq (by omega : 1 ≤ b) fuel s
  have hz : s = 0 → foldCarry b fuel s = 0 := by
    rintro rfl
    exact foldCarry_of_lt fuel (by omega)
  generalize hfold : foldCarry b fuel s = f at *
  have hpos : 0 < s+(b-1-f) := by
    by_cases h0 : s = 0
    · have := hz h0
      omega
    · omega
  have hdvd : s+(b-1-f) ≡ 0 [MOD b-1] := by
    calc s+(b-1-f) ≡ f+(b-1-f) [MOD b-1] := hmod.symm.add_right _
      _ = b-1 := by omega
      _ ≡ 0 [MOD b-1] := (Nat.modEq_zero_iff_dvd).mpr (dvd_refl _)
  have hres := (foldCarry_modEq (by omega : 1 ≤ b) fuel' (s+(b-1-f))).trans hdvd
  have hrlt := foldCarry_lt hb hf' ht
  have hrpos := foldCarry_pos (by omega : 1 ≤ b) fuel' _ hpos
  have hle := Nat.le_of_dvd hrpos ((Nat.modEq_zero_iff_dvd).mp hres)
  omega

end

end Rucux.Lib
