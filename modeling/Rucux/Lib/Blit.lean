import Mathlib.Data.List.Basic

/-! Writing a list over a part of another, as `memcpy` into a buffer does. -/

namespace Rucux.Lib
open List
variable {α : Type} {xs ys zs : List α} {k i : Nat}

def blit (xs : List α) (k : Nat) (ys : List α) : List α := xs.take k ++ ys ++ xs.drop (k + ys.length)

theorem length_blit (h : k ≤ xs.length) : (blit xs k ys).length = max xs.length (k + ys.length) := by
  simp [blit]
  omega

theorem getElem?_blit (h : k ≤ xs.length) : (blit xs k ys)[i]? =
      if i < k then xs[i]? else if i < k + ys.length then ys[i-k]? else xs[i]? := by
  simp only [blit,getElem?_append,length_append,length_take,Nat.min_eq_left h,
    getElem?_take,getElem?_drop]
  by_cases h1 : i < k
  · simp [h1,show i < k + ys.length by omega]
  by_cases h2 : i < k + ys.length
  · simp [h1,h2]
  · simp [h1,h2,show k + ys.length + (i - (k + ys.length)) = i by omega]

theorem blit_end : blit xs xs.length ys = xs ++ ys := by
  simp [blit]

theorem take_blit {n : Nat} (h : k ≤ n) (hn : n ≤ xs.length) :
    (blit xs k ys).take (max n (k + ys.length)) = blit (xs.take n) k ys := by
  apply ext_getElem?
  intro i
  have hk : k ≤ (xs.take n).length := by
    rw [length_take]
    omega
  rw [getElem?_blit hk,getElem?_take,getElem?_blit (by omega),getElem?_take]
  by_cases h1 : i < max n (k + ys.length)
  · by_cases h2 : i < k
    · simp [h1,h2,show i < n by omega]
    by_cases h3 : i < k + ys.length
    · simp [h1,h2,h3]
    · simp [h1,h2,h3,show i < n by omega]
  · simp [h1,show ¬i < k by omega,show ¬i < k + ys.length by omega,show ¬i < n by omega]

section Store
variable {ι β : Type} [DecidableEq ι] {mem : ι → β} {address address' : Nat → ι} {value value' : Nat → β} {n : Nat}

def store (mem : ι → β) (address : Nat → ι) (value : Nat → β) : Nat → ι → β
  | 0 => mem
  | n+1 => Function.update (store mem address value n) (address n) (value n)

theorem store_add (mem : ι → β) (address : Nat → ι) (value : Nat → β) (k n : Nat) :
    store (store mem address value k) (fun j => address (k + j)) (fun j => value (k + j)) n =
      store mem address value (k + n) := by
  induction n with
  | zero => rfl
  | succ n ih => rw [store,ih,← Nat.add_assoc,store]

theorem store_congr (ha : ∀ j, j < n → address j = address' j) (hv : ∀ j, j < n → value j = value' j) :
    store mem address value n = store mem address' value' n := by
  induction n with
  | zero => rfl
  | succ n ih =>
    rw [store,store,ih (fun j hj => ha j (by omega)) fun j hj => hv j (by omega),ha n (by omega),hv n (by omega)]

theorem store_successive (mem value : Nat → β) (k n i : Nat) :
    store mem (fun j => k + j) value n i = if k ≤ i ∧ i < k + n then value (i - k) else mem i := by
  induction n with
  | zero => rw [store,if_neg (by omega)]
  | succ n ih =>
    rw [store,Function.update_apply,ih]
    by_cases hi : i = k + n
    · rw [if_pos hi,if_pos (by omega),hi,Nat.add_sub_cancel_left]
    rw [if_neg hi]
    by_cases hlt : k ≤ i ∧ i < k + n
    · rw [if_pos hlt,if_pos (by omega)]
    · rw [if_neg hlt,if_neg (by omega)]

theorem store_id (mem value : Nat → β) (n i : Nat) : store mem id value n i = if i < n then value i else mem i := by
  have hsame : store mem id value n = store mem (fun j => 0 + j) value n :=
    store_congr (fun j _ => (Nat.zero_add j).symm) fun _ _ => rfl
  rw [hsame,store_successive]
  simp

end Store

end Rucux.Lib
