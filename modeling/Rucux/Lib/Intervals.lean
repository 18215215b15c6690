import Mathlib.Data.List.Nodup
import Mathlib.Data.List.Pairwise

/-! Lists of half-open intervals as partial maps. -/

namespace Rucux.Lib
open List

structure Extent (ρ β : Type) where
  lo : ρ → Nat
  hi : ρ → Nat
  val : ρ → Nat → β

namespace Extent
variable {ρ β : Type} (X : Extent ρ β) {rs xs ys zs : List ρ} {r : ρ} {a : Nat}

def Around (r : ρ) (a : Nat) : Prop := X.lo r ≤ a ∧ a < X.hi r

instance (r : ρ) (a : Nat) : Decidable (X.Around r a) :=
  inferInstanceAs (Decidable (X.lo r ≤ a ∧ a < X.hi r))

def content (rs : List ρ) (a : Nat) : Option β :=
  (rs.find? fun r => decide (X.Around r a)).map (X.val · a)

structure Ordered (rs : List ρ) : Prop where
  inhabited : ∀ r ∈ rs, X.lo r < X.hi r
  apart : rs.Pairwise fun x y => X.hi x ≤ X.lo y

variable {X}

theorem content_append : X.content (xs ++ ys) a = (X.content xs a).or (X.content ys a) := by
  simp only [content,find?_append]
  cases xs.find? _ <;> rfl

theorem content_eq_none : X.content rs a = none ↔ ∀ r ∈ rs, ¬X.Around r a := by
  simp [content]

/-- A change of one record matters where it changes what that record gives. -/
theorem content_congr (h : X.content [r] a = X.content zs a) :
    X.content (xs ++ r :: ys) a = X.content (xs ++ zs ++ ys) a := by
  rw [append_cons,content_append,content_append,content_append,content_append,h]

theorem Ordered.content_of_mem (h : X.Ordered rs) (hr : r ∈ rs) (ha : X.Around r a) :
    X.content rs a = some (X.val r a) := by
  obtain ⟨xs,ys,rfl⟩ := append_of_mem hr
  have hxs : X.content xs a = none := by
    refine content_eq_none.mpr fun x hx hax => ?_
    have hle := (pairwise_append.mp h.apart).2.2 x hx r (by simp)
    have h1 := hax.2
    have h2 := ha.1
    omega
  rw [content_append,hxs,Option.none_or]
  simp [content,ha]

theorem Ordered.sublist (h : X.Ordered rs) (hs : xs.Sublist rs) : X.Ordered xs :=
  ⟨fun r hr => h.inhabited r (hs.subset hr),h.apart.sublist hs⟩

theorem ordered_middle : X.Ordered (xs ++ r :: ys) ↔ X.Ordered (xs ++ ys) ∧ X.lo r < X.hi r ∧
      (∀ x ∈ xs, X.hi x ≤ X.lo r) ∧ ∀ y ∈ ys, X.hi r ≤ X.lo y := by
  constructor
  · intro h
    refine ⟨h.sublist (by simp),h.inhabited r (by simp),?_,?_⟩
    · exact fun x hx => (pairwise_append.mp h.apart).2.2 x hx r (by simp)
    · exact (pairwise_cons.mp (pairwise_append.mp h.apart).2.1).1
  rintro ⟨h,hr,hx,hy⟩
  obtain ⟨h1,h2,h3⟩ := pairwise_append.mp h.apart
  refine ⟨?_,pairwise_append.mpr ⟨h1,pairwise_cons.mpr ⟨hy,h2⟩,?_⟩⟩
  · intro x hm
    rcases mem_append.mp hm with hm | hm
    · exact h.inhabited x (mem_append_left _ hm)
    rcases mem_cons.mp hm with rfl | hm
    · exact hr
    · exact h.inhabited x (mem_append_right _ hm)
  intro x hxm y hym
  rcases mem_cons.mp hym with rfl | hym
  · exact hx x hxm
  · exact h3 x hxm y hym

theorem Ordered.exists_gap {p q : Nat} (h : X.Ordered rs) (hno : ∀ r ∈ rs, X.hi r ≤ p ∨ q ≤ X.lo r) :
    ∃ xs ys, rs = xs ++ ys ∧ (∀ x ∈ xs, X.hi x ≤ p) ∧ ∀ y ∈ ys, q ≤ X.lo y := by
  induction rs with
  | nil => exact ⟨[],[],rfl,by simp,by simp⟩
  | cons r rs ih =>
    obtain ⟨hr,hrs⟩ := forall_mem_cons.mp hno
    rcases hr with hr | hr
    · obtain ⟨xs,ys,rfl,hx,hy⟩ := ih (h.sublist (by simp)) hrs
      exact ⟨r :: xs,ys,rfl,forall_mem_cons.mpr ⟨hr,hx⟩,hy⟩
    refine ⟨[],r :: rs,rfl,by simp,forall_mem_cons.mpr ⟨hr,fun y hy => ?_⟩⟩
    have h1 := h.inhabited r (by simp)
    have h2 := (pairwise_cons.mp h.apart).1 y hy
    omega

end Extent

/-!
An interval cut into blocks. `extent` gives the length of the block at each address, and
`Tiled` says that the blocks at the addresses `xs` follow each other from `a` up to `e`.
-/

def Tiled (extent : Nat → Nat) : Nat → List Nat → Nat → Prop
  | a, [], e => a = e
  | a, x :: xs, e => x = a ∧ Tiled extent (a + extent a) xs e

variable {extent extent' : Nat → Nat} {a e x y : Nat} {xs ys l r : List Nat}

theorem tiled_append : Tiled extent a (xs ++ ys) e ↔ ∃ m, Tiled extent a xs m ∧ Tiled extent m ys e := by
  induction xs generalizing a with
  | nil => simp [Tiled]
  | cons x xs ih => simp [Tiled,ih,and_assoc]

section
variable (h : Tiled extent a xs e)
include h

theorem Tiled.congr (hx : ∀ x ∈ xs, extent' x = extent x) : Tiled extent' a xs e := by
  induction xs generalizing a with
  | nil => exact h
  | cons x xs ih =>
    obtain ⟨rfl,h⟩ := h
    refine ⟨rfl,?_⟩
    rw [hx x (by simp)]
    exact ih h fun y hy => hx y (by simp [hy])

theorem Tiled.le : a ≤ e := by
  induction xs generalizing a with
  | nil => exact Nat.le_of_eq h
  | cons x xs ih =>
    have hle := ih h.2
    omega

theorem Tiled.bounds (hx : x ∈ xs) : a ≤ x ∧ x + extent x ≤ e := by
  induction xs generalizing a with
  | nil => simp at hx
  | cons y ys ih =>
    obtain ⟨rfl,h⟩ := h
    rcases List.mem_cons.mp hx with rfl | hx
    · exact ⟨Nat.le_refl x,h.le⟩
    have hb := ih h hx
    omega

theorem Tiled.pairwise : xs.Pairwise fun x y => x + extent x ≤ y := by
  induction xs generalizing a with
  | nil => exact .nil
  | cons x xs ih =>
    obtain ⟨rfl,h⟩ := h
    exact .cons (fun y hy => (h.bounds hy).1) (ih h)

theorem Tiled.disjoint (hx : x ∈ xs) (hy : y ∈ xs) (hne : x ≠ y) :
    x + extent x ≤ y ∨ y + extent y ≤ x := by
  have : Std.Symm fun x y => x + extent x ≤ y ∨ y + extent y ≤ x := ⟨fun _ _ => Or.symm⟩
  have hp : xs.Pairwise fun x y => x + extent x ≤ y ∨ y + extent y ≤ x := h.pairwise.imp .inl
  exact hp.forall hx hy hne

theorem Tiled.nodup (hpos : ∀ x ∈ xs, 0 < extent x) : xs.Nodup := by
  refine h.pairwise.imp_of_mem fun hx _ hle => ?_
  have := hpos _ hx
  omega

theorem Tiled.length_le (hpos : ∀ x ∈ xs, 0 < extent x) : a + xs.length ≤ e := by
  induction xs generalizing a with
  | nil => exact h.le
  | cons x xs ih =>
    obtain ⟨rfl,h⟩ := h
    have hx := hpos x (by simp)
    have hle := ih h fun y hy => hpos y (by simp [hy])
    rw [List.length_cons]
    omega

theorem Tiled.dvd {d : Nat} (ha : d ∣ a) (hd : ∀ x ∈ xs, d ∣ extent x) (hx : x ∈ xs) : d ∣ x := by
  induction xs generalizing a with
  | nil => simp at hx
  | cons y ys ih =>
    obtain ⟨rfl,h⟩ := h
    rcases List.mem_cons.mp hx with rfl | hx'
    · exact ha
    · exact ih h (Nat.dvd_add ha (hd y (by simp))) (fun z hz => hd z (by simp [hz])) hx'

end

theorem Tiled.split (h : Tiled extent a (l ++ x :: r) e) (hl : ∀ z ∈ l ++ r, extent' z = extent z)
    (hy : y = x + extent' x) (hsum : extent' x + extent' y = extent x) :
    Tiled extent' a (l ++ x :: y :: r) e := by
  obtain ⟨m,hleft,rfl,hright⟩ := tiled_append.mp h
  refine tiled_append.mpr ⟨x,hleft.congr fun z hz => hl z (by simp [hz]),rfl,hy,?_⟩
  rw [← hy,show y + extent' y = x + extent x by omega]
  exact hright.congr fun z hz => hl z (by simp [hz])

theorem Tiled.merge (h : Tiled extent a (l ++ x :: y :: r) e)
    (hl : ∀ z ∈ l ++ r, extent' z = extent z) (hsum : extent' x = extent x + extent y) :
    Tiled extent' a (l ++ x :: r) e := by
  obtain ⟨m,hleft,rfl,hy,hright⟩ := tiled_append.mp h
  refine tiled_append.mpr ⟨x,hleft.congr fun z hz => hl z (by simp [hz]),rfl,?_⟩
  rw [hsum,← Nat.add_assoc,← hy]
  rw [← hy] at hright
  exact hright.congr fun z hz => hl z (by simp [hz])

end Rucux.Lib
