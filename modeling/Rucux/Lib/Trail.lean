import Mathlib.Data.List.Nodup

/-! Trails: the elements one meets going from `c` along a partial function until it gives `stop`. -/

namespace Rucux.Lib
open List Option
variable {α : Type} {next : α → Option α} {stop c : α} {xs ys : List α}

def Trail (next : α → Option α) (stop : α) : α → List α → Prop
  | c, [] => c = stop
  | c, x :: xs => x = c ∧ c ≠ stop ∧ ∃ n, next c = some n ∧ Trail next stop n xs

namespace Trail

section
variable (h : Trail next stop c xs)
include h

theorem unique (h' : Trail next stop c ys) : xs = ys := by
  induction xs generalizing c ys with
  | nil =>
    cases ys with
    | nil => rfl
    | cons y ys => exact absurd h h'.2.1
  | cons x xs ih =>
    cases ys with
    | nil => exact absurd h' h.2.1
    | cons y ys =>
      obtain ⟨rfl,_,n,hn,hx⟩ := h
      obtain ⟨rfl,_,m,hm,hy⟩ := h'
      obtain rfl : n = m := some.inj (hn.symm.trans hm)
      rw [ih hx hy]

theorem of_mem {x : α} (hx : x ∈ xs) : ∃ ys, ys.length ≤ xs.length ∧ Trail next stop x ys := by
  induction xs generalizing c with
  | nil => cases hx
  | cons y ys ih =>
    rcases mem_cons.mp hx with rfl | hx
    · exact ⟨x :: ys,Nat.le_refl _,h.1 ▸ h⟩
    obtain ⟨_,_,n,_,hn⟩ := h
    obtain ⟨zs,hle,hz⟩ := ih hn hx
    exact ⟨zs,by simp; omega,hz⟩

theorem nodup : xs.Nodup := by
  induction xs generalizing c with
  | nil => exact nodup_nil
  | cons x xs ih =>
    have hall := h
    obtain ⟨rfl,_,n,_,hn⟩ := h
    refine nodup_cons.mpr ⟨fun hx => ?_,ih hn⟩
    -- a second visit would start a trail both as long as this one and shorter
    obtain ⟨ys,hle,hy⟩ := hn.of_mem hx
    have hlen := congrArg length (hall.unique hy)
    simp only [length_cons] at hlen
    omega

theorem next_isSome {x : α} (hx : x ∈ xs) : (next x).isSome := by
  induction xs generalizing c with
  | nil => cases hx
  | cons y ys ih =>
    obtain ⟨rfl,_,n,hn,hys⟩ := h
    rcases mem_cons.mp hx with rfl | hx
    · simp [hn]
    · exact ih hys hx

end

end Trail

def trail? [DecidableEq α] (next : α → Option α) (stop : α) : Nat → α → Option (List α)
  | 0, c => if c = stop then some [] else none
  | rounds+1, c =>
    if c = stop then some []
    else (next c).bind fun n => (trail? next stop rounds n).map (c :: ·)

theorem trail?_eq_some [DecidableEq α] {rounds : Nat} :
    trail? next stop rounds c = some xs ↔ Trail next stop c xs ∧ xs.length ≤ rounds := by
  induction rounds generalizing c xs with
  | zero =>
    cases xs with
    | nil => simp [trail?,Trail]
    | cons x xs => by_cases hc : c = stop <;> simp [trail?,hc]
  | succ rounds ih =>
    by_cases hc : c = stop
    · subst hc
      cases xs <;> simp [trail?,Trail]
    cases xs with
    | nil => simp [trail?,Trail,hc,bind_eq_some_iff]
    | cons x xs =>
      simp only [trail?,if_neg hc,bind_eq_some_iff,map_eq_some_iff,ih,
        List.cons.injEq,Trail,length_cons]
      constructor
      · rintro ⟨n,hn,_,⟨ht,hle⟩,rfl,rfl⟩
        exact ⟨⟨rfl,hc,n,hn,ht⟩,by omega⟩
      · rintro ⟨⟨rfl,_,n,hn,ht⟩,hle⟩
        exact ⟨n,hn,xs,⟨ht,by omega⟩,rfl,rfl⟩

end Rucux.Lib
