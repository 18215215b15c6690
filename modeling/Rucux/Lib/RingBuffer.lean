import Mathlib.Data.List.Basic

/-! A ring buffer over a flat store, with a producer index `head` and a consumer index `tail`. -/

namespace Rucux.Lib
open List Function

structure RingBuffer (α : Type) where
  buf : Nat → α
  size : Nat
  head : Nat
  tail : Nat

namespace RingBuffer
variable {α : Type}

def used (r : RingBuffer α) : Nat := (r.head+r.size-r.tail) % r.size

def put (r : RingBuffer α) (x : α) : RingBuffer α :=
  { r with buf := update r.buf r.head x, head := (r.head+1) % r.size }

def putAll (r : RingBuffer α) (xs : List α) : RingBuffer α := xs.foldl put r

def take : Nat → RingBuffer α → List α × RingBuffer α
  | 0, r => ([],r)
  | n+1, r =>
    let rest := take n { r with tail := (r.tail+1) % r.size }
    (r.buf r.tail :: rest.1,rest.2)

def contents (r : RingBuffer α) : List α :=
  (range r.used).map (fun i => r.buf ((r.tail+i) % r.size))

structure InRange (r : RingBuffer α) : Prop where
  head_lt : r.head < r.size
  tail_lt : r.tail < r.size

theorem mod_of_lt_two_mul {x n : Nat} (h : x < 2*n) : x % n = if x < n then x else x-n := by
  split
  · rename_i hlt
    exact Nat.mod_eq_of_lt hlt
  · rename_i hge
    rw [Nat.mod_eq_sub_mod (by omega),Nat.mod_eq_of_lt (by omega)]

variable {r : RingBuffer α}

theorem InRange.used_eq (h : r.InRange) :
    r.used = if r.tail ≤ r.head then r.head-r.tail else r.head+r.size-r.tail := by
  have hh := h.head_lt
  have ht := h.tail_lt
  rw [used,mod_of_lt_two_mul (by omega)]
  split <;> split <;> omega

theorem InRange.used_lt (h : r.InRange) : r.used < r.size :=
  Nat.mod_lt _ (Nat.lt_of_le_of_lt (Nat.zero_le _) h.head_lt)

@[simp] theorem contents_length (r : RingBuffer α) : r.contents.length = r.used := by
  simp [contents]

@[simp] theorem put_size (r : RingBuffer α) (x : α) : (r.put x).size = r.size := rfl

@[simp] theorem put_tail (r : RingBuffer α) (x : α) : (r.put x).tail = r.tail := rfl

section
variable (h : r.InRange)
include h

theorem InRange.put (x : α) : (r.put x).InRange :=
  ⟨Nat.mod_lt _ (Nat.lt_of_le_of_lt (Nat.zero_le _) h.head_lt),h.tail_lt⟩

theorem InRange.used_put (x : α) (hroom : r.used+1 < r.size) : (r.put x).used = r.used+1 := by
  have hh := h.head_lt
  have ht := h.tail_lt
  have hnew : (r.put x).head = if r.head+1 < r.size then r.head+1 else r.head+1-r.size :=
    mod_of_lt_two_mul (by omega)
  rw [h.used_eq] at hroom ⊢
  rw [(h.put x).used_eq,put_tail,put_size,hnew]
  repeat' split
  all_goals first | omega | (split at hroom <;> omega)

theorem InRange.slot_ne_head {i : Nat} (hi : i < r.used) : (r.tail+i) % r.size ≠ r.head := by
  have ht := h.tail_lt
  have hu := h.used_lt
  rw [mod_of_lt_two_mul (by omega)]
  rw [h.used_eq] at hi hu
  split at hi <;> split <;> omega

theorem InRange.head_eq : (r.tail+r.used) % r.size = r.head := by
  have hh := h.head_lt
  have ht := h.tail_lt
  have hu := h.used_lt
  rw [mod_of_lt_two_mul (by omega)]
  rw [h.used_eq] at hu ⊢
  repeat' split
  all_goals (split at hu <;> omega)

theorem InRange.contents_put (x : α) (hroom : r.used+1 < r.size) :
    (r.put x).contents = r.contents ++ [x] := by
  rw [contents,h.used_put x hroom,range_succ,map_append,contents]
  congr 1
  · apply map_congr_left
    intro i hi
    simp only [put_tail,put_size]
    exact update_of_ne (h.slot_ne_head (mem_range.mp hi)) _ _
  · simp only [map_cons,map_nil,put_tail,put_size,h.head_eq]
    simp [RingBuffer.put]

end

@[simp] theorem putAll_nil (r : RingBuffer α) : r.putAll [] = r := rfl

@[simp] theorem putAll_cons (r : RingBuffer α) (x : α) (xs : List α) :
    r.putAll (x :: xs) = (r.put x).putAll xs := rfl

@[simp] theorem putAll_size (r : RingBuffer α) (xs : List α) : (r.putAll xs).size = r.size := by
  induction xs generalizing r with
  | nil => rfl
  | cons x xs ih => simp [ih]

section
variable (h : r.InRange)
include h

theorem InRange.putAll (xs : List α) : (r.putAll xs).InRange := by
  induction xs generalizing r with
  | nil => exact h
  | cons x xs ih => exact ih (h.put x)

theorem InRange.contents_putAll (xs : List α) (hroom : r.used+xs.length < r.size) :
    (r.putAll xs).contents = r.contents ++ xs := by
  induction xs generalizing r with
  | nil => simp
  | cons x xs ih =>
    have hlen : r.used+(xs.length+1) < r.size := by simpa using hroom
    have hput := h.used_put x (by omega)
    rw [putAll_cons,ih (h.put x) (by rw [hput,put_size]; omega), h.contents_put x (by omega)]
    simp

theorem InRange.used_putAll (xs : List α) (hroom : r.used+xs.length < r.size) :
    (r.putAll xs).used = r.used+xs.length := by
  rw [← contents_length,h.contents_putAll xs hroom,length_append,contents_length]

theorem InRange.used_advance (hpos : 0 < r.used) :
    ({ r with tail := (r.tail+1) % r.size } : RingBuffer α).used+1 = r.used := by
  have hh := h.head_lt
  have ht := h.tail_lt
  have hnext : (r.tail+1) % r.size = if r.tail+1 < r.size then r.tail+1 else r.tail+1-r.size :=
    mod_of_lt_two_mul (by omega)
  have hr : ({ r with tail := (r.tail+1) % r.size } : RingBuffer α).InRange :=
    ⟨hh,Nat.mod_lt _ (by omega)⟩
  rw [h.used_eq] at hpos ⊢
  rw [hr.used_eq]
  dsimp only
  rw [hnext]
  repeat' split
  all_goals first | omega | (split at hpos <;> omega)

theorem InRange.contents_advance (hpos : 0 < r.used) :
    r.contents = r.buf r.tail :: ({ r with tail := (r.tail+1) % r.size } : RingBuffer α).contents := by
  have hu := h.used_advance hpos
  rw [contents,← hu,range_succ_eq_map,map_cons,map_map,contents]
  simp only [Nat.add_zero,Nat.mod_eq_of_lt h.tail_lt]
  congr 1
  apply map_congr_left
  intro i _
  simp only [comp_apply,Nat.mod_add_mod]
  rw [Nat.add_assoc,Nat.succ_eq_one_add]

theorem InRange.take {n : Nat} (hn : n ≤ r.used) :
    (take n r).1 = r.contents.take n ∧ (take n r).2.contents = r.contents.drop n ∧
      (take n r).2.InRange ∧ (take n r).2.size = r.size := by
  induction n generalizing r with
  | zero => exact ⟨rfl,rfl,h,rfl⟩
  | succ n ih =>
    have hpos : 0 < r.used := by omega
    have hu := h.used_advance hpos
    have hr : ({ r with tail := (r.tail+1) % r.size } : RingBuffer α).InRange :=
      ⟨h.head_lt,Nat.mod_lt _ (Nat.lt_of_le_of_lt (Nat.zero_le _) h.head_lt)⟩
    obtain ⟨h₁,h₂,h₃,h₄⟩ := ih hr (by omega)
    rw [h.contents_advance hpos]
    simp only [RingBuffer.take,take_succ_cons,drop_succ_cons]
    exact ⟨by rw [h₁],h₂,h₃,h₄⟩

theorem InRange.contents_eq_nil : r.contents = [] ↔ r.head = r.tail := by
  have ht := h.tail_lt
  rw [← length_eq_zero_iff,contents_length,h.used_eq]
  split <;> omega

end

end RingBuffer
end Rucux.Lib
