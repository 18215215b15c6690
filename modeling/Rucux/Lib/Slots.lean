import Mathlib.Data.List.FinRange
import Mathlib.Data.List.Count
import Mathlib.Data.List.Perm.Basic

/-! A fixed number of slots with a list in each: the queues of a table, the free lists of an allocator, the
caches of the processors. -/

namespace Rucux.Lib
open Function List
variable {α : Type} {n : Nat}

def gather (f : Fin n → List α) : List α := (finRange n).flatMap f

theorem mem_gather {f : Fin n → List α} {x : α} : x ∈ gather f ↔ ∃ i, x ∈ f i := by
  simp [gather]

theorem flatMap_update {ι : Type} [DecidableEq ι] [DecidableEq α] {is : List ι} (hnd : is.Nodup)
    {i : ι} (hi : i ∈ is) (f : ι → List α) (xs : List α) :
    is.flatMap (update f i xs) ++ f i ~ is.flatMap f ++ xs := by
  induction is with
  | nil => simp at hi
  | cons j is ih =>
    obtain ⟨hj,hnd⟩ := nodup_cons.mp hnd
    rw [perm_iff_count]
    intro x
    by_cases hij : i = j
    · subst hij
      have hrest : is.flatMap (update f i xs) = is.flatMap f := by
        apply flatMap_congr
        intro k hk
        have hne : k ≠ i := by rintro rfl; exact hj hk
        simp [hne]
      simp [hrest,count_append]
      omega
    have hmem : i ∈ is := by simpa [hij] using hi
    have hne : j ≠ i := Ne.symm hij
    have hcount := (ih hnd hmem).count_eq x
    simp [hne,count_append] at hcount ⊢
    omega

theorem flatMap_owner {ι : Type} {is : List ι} {f : ι → List α} (h : (is.flatMap f).Nodup) {i j : ι}
    (hi : i ∈ is) (hj : j ∈ is) {x : α} (hxi : x ∈ f i) (hxj : x ∈ f j) : i = j := by
  induction is with
  | nil => simp at hi
  | cons k is ih =>
    rw [flatMap_cons,nodup_append] at h
    have hone : ∀ l ∈ is, x ∈ f k → x ∈ f l → False := fun l hl hk hx =>
      h.2.2 x hk x (mem_flatMap.mpr ⟨l,hl,hx⟩) rfl
    rcases mem_cons.mp hi with rfl | hi' <;> rcases mem_cons.mp hj with rfl | hj'
    · rfl
    · exact (hone j hj' hxi hxj).elim
    · exact (hone i hi' hxj hxi).elim
    · exact ih h.2.1 hi' hj'

theorem gather_update [DecidableEq α] (f : Fin n → List α) (i : Fin n) (xs : List α) :
    gather (update f i xs) ++ f i ~ gather f ++ xs :=
  flatMap_update (nodup_finRange n) (mem_finRange i) f xs

theorem gather_push [DecidableEq α] (f : Fin n → List α) (i : Fin n) (x : α) :
    gather (update f i (x :: f i)) ~ x :: gather f := by
  rw [perm_iff_count]
  intro y
  have h := (gather_update f i (x :: f i)).count_eq y
  simp only [count_append,count_cons] at h ⊢
  omega

theorem gather_pop [DecidableEq α] {f : Fin n → List α} {i : Fin n} {x : α} {xs : List α}
    (hf : f i = x :: xs) : gather f ~ x :: gather (update f i xs) := by
  rw [perm_iff_count]
  intro y
  have h := (gather_update f i xs).count_eq y
  simp only [hf,count_append,count_cons] at h ⊢
  omega

theorem count_gather_update [DecidableEq α] (f : Fin n → List α) (i : Fin n) (xs : List α) (x : α) :
    (gather (update f i xs)).count x + (f i).count x = (gather f).count x + xs.count x := by
  simpa [count_append] using (gather_update f i xs).count_eq x

/-! Resources that are taken from a pool and given back to it. -/

structure Custody (held : Fin n → List α) (store out : List α) : Prop where
  nodup : out.Nodup
  placed : gather held ++ store ~ out

namespace Custody
variable {held : Fin n → List α} {store store' out out' : List α} {t : Fin n} {xs : List α} {x : α}

section
variable (h : Custody held store out)
include h

theorem mem_of_held (hx : x ∈ held t) : x ∈ out :=
  h.placed.subset (mem_append_left _ (mem_gather.mpr ⟨t,hx⟩))

theorem mem_of_store (hx : x ∈ store) : x ∈ out :=
  h.placed.subset (mem_append_right _ hx)

theorem placed_nodup : (gather held ++ store).Nodup :=
  h.placed.nodup_iff.mpr h.nodup

/-- Each resource is with one holder and not in the store, or in the store and with no holder. -/
theorem exclusive (hx : x ∈ out) :
    (∃ t, x ∈ held t ∧ ∀ u, x ∈ held u → u = t) ∧ x ∉ store ∨ (∀ t, x ∉ held t) ∧ x ∈ store := by
  obtain ⟨hg,-,hno⟩ := nodup_append.mp h.placed_nodup
  rcases mem_append.mp (h.placed.symm.subset hx) with hm | hm
  · obtain ⟨t,ht⟩ := mem_gather.mp hm
    refine .inl ⟨⟨t,ht,fun u hu => ?_⟩,fun hs => hno x hm x hs rfl⟩
    exact flatMap_owner hg (mem_finRange u) (mem_finRange t) hu ht
  · exact .inr ⟨fun t ht => hno x (mem_gather.mpr ⟨t,ht⟩) x hm rfl,hm⟩

theorem restore (hs : store' ~ store) : Custody held store' out :=
  ⟨h.nodup,(hs.append_left _).trans h.placed⟩

theorem keep (ht : held t = xs) : Custody (update held t xs) store out := by
  rwa [← ht,update_eq_self]

end

variable [DecidableEq α]

section
variable (h : Custody held store out)
include h

/-- One holder's part, the store and what is out may change together if the books balance. -/
theorem trade (hnd : out'.Nodup) (hp : out ++ xs ++ store' ~ out' ++ held t ++ store) :
    Custody (update held t xs) store' out' := by
  refine ⟨hnd,perm_iff_count.mpr fun y => ?_⟩
  have h1 := h.placed.count_eq y
  have h2 := hp.count_eq y
  have h3 := count_gather_update held t xs y
  simp only [count_append] at h1 h2 ⊢
  omega

theorem take (hx : x ∉ out) (ht : held t = []) : Custody (update held t [x]) store (x :: out) := by
  refine h.trade (nodup_cons.mpr ⟨hx,h.nodup⟩) ?_
  simp [ht,perm_middle]

theorem put (ht : held t = [x]) (hs : store' ~ x :: store) : Custody (update held t []) store' out := by
  refine h.trade h.nodup ?_
  simpa [ht] using hs.append_left out

theorem fetch (ht : held t = []) (hs : store ~ x :: store') : Custody (update held t [x]) store' out := by
  refine h.trade h.nodup ?_
  simpa [ht] using hs.symm.append_left out

theorem giveBack (ht : held t = [x]) : Custody (update held t []) store (out.erase x) := by
  have hx : x ∈ out := h.mem_of_held (t := t) (by simp [ht])
  refine h.trade (h.nodup.erase x) ?_
  have hp : out ~ out.erase x ++ [x] := (perm_cons_erase hx).trans (perm_append_singleton _ _).symm
  simpa [ht] using hp.append_right store

theorem giveBackStored (hs : store ~ x :: store') : Custody held store' (out.erase x) := by
  have hx : x ∈ out := h.mem_of_store (hs.symm.subset (by simp))
  refine ⟨h.nodup.erase x,(perm_cons x).mp ?_⟩
  calc x :: (gather held ++ store') ~ gather held ++ x :: store' := perm_middle.symm
    _ ~ gather held ++ store := hs.symm.append_left _
    _ ~ out := h.placed
    _ ~ x :: out.erase x := perm_cons_erase hx

end

end Custody
end Rucux.Lib
