import Mathlib.Data.Nat.Bitwise

/-! Blocks of `2^k` units that start at a multiple of their size. -/

namespace Rucux.Lib.Dyadic

def In (x p k : Nat) : Prop := p ≤ x ∧ x < p + 2^k

theorem in_self (p k : Nat) : In p p k := ⟨le_rfl,Nat.lt_add_of_pos_right (Nat.two_pow_pos k)⟩

def buddy (p k : Nat) : Nat := p ^^^ 2^k

theorem nested {x p j q k : Nat} (hp : 2^j ∣ p) (hq : 2^k ∣ q) (hjk : j ≤ k) (hxp : In x p j)
    (hxq : In x q k) : q ≤ p ∧ p + 2^j ≤ q + 2^k := by
  obtain ⟨a,rfl⟩ := hp
  obtain ⟨c,hc⟩ := Nat.pow_dvd_pow 2 hjk
  obtain ⟨b,rfl⟩ := (Dvd.intro c hc.symm).trans hq
  obtain ⟨hp₁,hp₂⟩ := hxp
  obtain ⟨hq₁,hq₂⟩ := hxq
  have hba : b ≤ a := by
    by_contra hn
    have hle : 2^j*(a+1) ≤ 2^j*b := Nat.mul_le_mul_left _ (by omega)
    rw [Nat.mul_add] at hle
    omega
  have hab : a+1 ≤ b+c := by
    by_contra hn
    have hle : 2^j*(b+c) ≤ 2^j*a := Nat.mul_le_mul_left _ (by omega)
    rw [Nat.mul_add,← hc] at hle
    omega
  refine ⟨Nat.mul_le_mul_left _ hba,?_⟩
  rw [hc,← Nat.mul_add]
  calc 2^j*a + 2^j = 2^j*(a+1) := by rw [Nat.mul_add,Nat.mul_one]
    _ ≤ 2^j*(b+c) := Nat.mul_le_mul_left _ hab

theorem same_order {x p q k : Nat} (hp : 2^k ∣ p) (hq : 2^k ∣ q) (hxp : In x p k)
    (hxq : In x q k) : p = q :=
  Nat.le_antisymm (nested hq hp le_rfl hxq hxp).1 (nested hp hq le_rfl hxp hxq).1

theorem buddy_cases {p k : Nat} (h : 2^k ∣ p) : (2^(k+1) ∣ p ∧ buddy p k = p + 2^k) ∨
      (2^k ≤ p ∧ 2^(k+1) ∣ p - 2^k ∧ buddy p k = p - 2^k) := by
  obtain ⟨q,rfl⟩ := h
  have hxor : buddy (2^k*q) k = 2^k*(q ^^^ 1) := by
    have hs := Nat.shiftLeft_xor_distrib (a := q) (b := 1) (i := k)
    simp only [Nat.shiftLeft_eq,one_mul] at hs
    rw [buddy,Nat.mul_comm _ q,← hs,Nat.mul_comm]
  rcases Nat.even_or_odd q with he | ho
  · left
    rw [hxor,Nat.xor_one_of_even he]
    obtain ⟨r,rfl⟩ := he
    exact ⟨⟨r,by rw [Nat.pow_succ,Nat.mul_assoc,Nat.two_mul]⟩,by rw [Nat.mul_add,Nat.mul_one]⟩
  right
  rw [hxor,Nat.xor_one_of_odd ho]
  obtain ⟨r,rfl⟩ := ho
  rw [show 2*r+1-1 = 2*r by omega,Nat.mul_add (2^k),Nat.mul_one,Nat.add_sub_cancel]
  exact ⟨by omega,⟨r,by rw [Nat.pow_succ,Nat.mul_assoc]⟩,rfl⟩

/-- Disjoint blocks of at most order `M`, no two of them buddies below it. -/
structure Coalesced (M : Nat) (F : Nat → Nat → Prop) : Prop where
  aligned : ∀ p k, F p k → 2^k ∣ p
  bound : ∀ p k, F p k → k ≤ M
  disjoint : ∀ x p j q k, F p j → F q k → In x p j → In x q k → p = q ∧ j = k
  apart : ∀ p k, k < M → F p k → ¬ F (buddy p k) k

def Covers (F : Nat → Nat → Prop) (x : Nat) : Prop := ∃ p k, F p k ∧ In x p k

variable {M : Nat} {F G : Nat → Nat → Prop}

theorem Coalesced.exists_block (h : Coalesced M F) {a k : Nat} (hk : k ≤ M) (ha : 2^k ∣ a)
    (hcov : ∀ x, In x a k → Covers F x) : ∃ p j, k ≤ j ∧ F p j ∧ In a p j := by
  induction k generalizing a with
  | zero =>
    obtain ⟨p,j,hf,hin⟩ := hcov a (in_self a 0)
    exact ⟨p,j,Nat.zero_le j,hf,hin⟩
  | succ k ih =>
    have hpow : 2^(k+1) = 2^k + 2^k := by rw [Nat.pow_succ]; omega
    have hka : 2^k ∣ a := (Nat.pow_dvd_pow 2 (Nat.le_succ k)).trans ha
    have hkb : 2^k ∣ a + 2^k := Nat.dvd_add hka (dvd_refl _)
    obtain ⟨p,i,hi,hp,hip⟩ := ih (Nat.le_of_succ_le hk) hka fun x hx => hcov x ⟨hx.1,by
      have := hx.2
      omega⟩
    obtain ⟨q,j,hj,hq,hjq⟩ := ih (Nat.le_of_succ_le hk) hkb fun x hx =>
      hcov x ⟨by have := hx.1; omega,by have := hx.2; omega⟩
    by_cases hi' : k+1 ≤ i
    · exact ⟨p,i,hi',hp,hip⟩
    by_cases hj' : k+1 ≤ j
    · have hn := nested ha (h.aligned q j hq) hj' (x := a + 2^k) ⟨by omega,by
        have := Nat.two_pow_pos k
        omega⟩ hjq
      exact ⟨q,j,hj',hq,hn.1,by have := Nat.two_pow_pos k; omega⟩
    -- both halves are free blocks of order k, and they are buddies
    · obtain rfl : i = k := by omega
      obtain rfl : j = i := by omega
      obtain rfl := same_order (h.aligned p j hp) hka hip (in_self a j)
      obtain rfl := same_order (h.aligned q j hq) hkb hjq (in_self _ j)
      refine absurd ?_ (h.apart p j hk hp)
      rcases buddy_cases hka with ⟨-,hb⟩ | ⟨hle,hd,-⟩
      · rwa [hb]
      have hone := (Nat.dvd_sub ha hd)
      rw [show p - (p - 2^j) = 2^j by omega] at hone
      have hle' := Nat.le_of_dvd (Nat.two_pow_pos j) hone
      have := Nat.two_pow_pos j
      omega

theorem Coalesced.unique (hF : Coalesced M F) (hG : Coalesced M G)
    (hcov : ∀ x, Covers F x ↔ Covers G x) {p k : Nat} (hp : F p k) : G p k := by
  have hpa := hF.aligned p k hp
  obtain ⟨q,j,hkj,hq,hpq⟩ := hG.exists_block (hF.bound p k hp) hpa fun x hx => (hcov x).mp ⟨p,k,hp,hx⟩
  have hqa := hG.aligned q j hq
  obtain ⟨r,i,hji,hr,hqr⟩ := hF.exists_block (hG.bound q j hq) hqa fun x hx => (hcov x).mpr ⟨q,j,hq,hx⟩
  have hn := nested hqa (hF.aligned r i hr) hji (in_self q j) hqr
  obtain ⟨rfl,rfl⟩ := hF.disjoint p p k r i hp hr (in_self p k) ⟨hn.1.trans hpq.1,by have := hpq.2; omega⟩
  obtain rfl : k = j := Nat.le_antisymm hkj hji
  rwa [same_order hpa hqa (in_self p k) hpq]

end Rucux.Lib.Dyadic
